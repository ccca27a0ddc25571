import Midend.Proofs.Lower.Mistakes

/-! Lowering of programs does not fault. The steps by which a function begins and ends are possible like
those of its body, and every item leaves a module in which the next one can be lowered. -/
namespace Midend
open List Builder Graph

structure FuncDef.Fit (f : FuncDef) (defs : List FuncDef) : Prop where
  defined : f ∈ defs
  params : ∀ param ∈ f.params, param.ty.isVoid = false
  body : Lower.Sensible defs f.body.decls f.body.exprs
  short : f.params.length < 2 ^ 63

structure Lowering.Prepared (defs : List FuncDef) (s : Lowering) : Prop extends s.Settled where
  typed : s.module.graph.Typed
  callees : Site.Callees defs s.module

namespace Lowering.Prepared
open Lower
variable {defs : List FuncDef} {s t : Lowering} {f : FuncDef} {fn : ValueId} {m : Module}
  {ctx : List Location} {res : Except LowerError Unit}
variable {i : Item}

private theorem callees_framed {m : Module} (prepared : s.Prepared defs) (framed : s.module.graph.Framed m.graph) :
    ∀ callee ∈ s.module.functions, ∃ f ∈ defs, ∃ args,
      m.graph.kind? callee = some (.function ⟨f.name, args⟩) ∧ m.graph.ty? callee = some f.ty := by
  intro callee mem
  obtain ⟨f, defined, args, isFn, isTy⟩ := prepared.callees callee mem
  have into := lt_of_kind? isFn
  exact ⟨f, defined, args, (framed.kind? callee into).trans isFn, (framed.ty? callee into).trans isTy⟩

private theorem body_finishes (prepared : s.Prepared defs) (fit : f.Fit defs)
    (created : Builder.createFunction f.name f.ty (f.params.map (·.name)) { s.module with contexts := ctx } = .ok (fn, m)) :
    Finishes True (functionBody fn f) (s.entering f.name fn m) (·.module.graph.Typed) fun _ t =>
      t.module.graph.Typed := by
  obtain ⟨⟨args, ho⟩, eq⟩ := opened_of_created prepared.toSettled created
  have add := ho.added
  refine (functionBody_finishes ⟨True, defs⟩ ho fun _ =>
    ⟨prepared.typed.functionAdded add, ?_, fit.params, fit.body, fit.short⟩).mono (fun _ ended => ended.2 trivial)
    fun _ _ ended => ended.1.2 trivial
  have functions : m.functions = s.module.functions ++ [fn] := by rw [eq]
  intro callee mem
  rw [show (s.entering f.name fn m).module.functions = _ from functions] at mem
  rcases mem_append.1 mem with old | new
  · exact prepared.callees_framed add.framed callee old
  · rw [mem_singleton.1 new]
    exact ⟨f, fit.defined, args, add.kind?, add.ty?⟩

private theorem function_runs (prepared : s.Prepared defs) (fit : f.Fit defs) :
    ∃ result t, (Lower.function f).run s = .ok (result, t) := by
  have finishes : Finishes True (Lower.function f) s (fun _ => True) fun _ _ => True := by
    unfold Lower.function withContext
    apply Finishes.between
    apply Finishes.get
    dsimp only
    split
    next =>
      have failed : Finishes True (fail (.functionRedefined f.name f.location) : Lower PUnit)
          { s with module.contexts := f.location :: s.module.contexts } (fun _ => True) fun _ _ => False :=
        .fail fun _ => trivial
      exact failed.bind fun _ _ never => never.elim
    next =>
      obtain ⟨func, module, created, _⟩ := @Builder.createFunction_runs
        { s.module with contexts := f.location :: s.module.contexts } f.name f.ty (f.params.map (·.name))
        prepared.consistent rfl ((length_map _).trans (length_map _).symm)
      obtain ⟨⟨args, opened⟩, eq⟩ := opened_of_created prepared.toSettled created
      obtain ⟨hit, final, lowered⟩ := (prepared.body_finishes fit created).runs trivial
      apply Finishes.step created
      apply Finishes.step rfl
      refine Finishes.caught ⟨hit, _, bind_eq_ok.2 ⟨(hit, final), lowered, rfl⟩⟩ ?_
      intro result t ran
      obtain ⟨final, lowered, left⟩ := between_run ran
      rw [left]
      apply Finishes.step rfl
      apply Finishes.modified
      cases result with
      | ok value => exact .pure trivial
      | error e =>
        have left := left_of_intact prepared.toSettled eq (functionBody_ends opened _ _ lowered)
        obtain ⟨entry, skeleton⟩ := left.skeleton
        obtain ⟨d, isFunction⟩ := skeleton.laid.function
        obtain ⟨_, module', removed, _⟩ := removeFunction_runs skeleton.consistent isFunction (by
          intro b mem
          obtain ⟨d, isBlock⟩ := skeleton.block_of_mem mem
          refine ⟨d, isBlock, ?_⟩
          intro inst isIn
          obtain ⟨_, _, hit, _⟩ := skeleton.coded.listed b inst ((skeleton.laid.blocks b).1 mem).1
            (by rw [code_of_kind? isBlock]; exact isIn)
          exact lt_of_kind? hit)
        exact Finishes.step removed (.thrown trivial)
  exact finishes.runs trivial

/-- Lowering a function leaves a module that is prepared for the next one. -/
theorem function (prepared : s.Prepared defs) (fit : f.Fit defs) (run : FunctionRun f s res t) :
    t.Prepared defs := by
  have settled := (function_continues prepared.toSettled run).settled
  cases run with
  | redefined => exact ⟨settled, prepared.typed, prepared.callees⟩
  | @kept fn m final unknown created lowered =>
    obtain ⟨⟨args, ho⟩, eq⟩ := opened_of_created prepared.toSettled created
    have left := left_of_intact prepared.toSettled eq (functionBody_ends ho _ _ lowered).1
    obtain ⟨entry, skel⟩ := left.skeleton
    obtain ⟨keeps, _⟩ := functionBody_keeps ho.added.consistent lowered
    refine ⟨settled, (prepared.body_finishes fit created).ends _ _ lowered, ?_⟩
    intro callee mem
    rw [show _ = _ from left.functions] at mem
    rcases mem_append.1 mem with old | new
    · exact prepared.callees_framed skel.framed callee old
    · rw [mem_singleton.1 new]
      exact ⟨f, fit.defined, args, keeps.functions _ _ ho.added.kind?, keeps.types _ _ ho.added.ty?⟩
  | @dropped fn m module' final e unknown created lowered removing =>
    obtain ⟨⟨args, ho⟩, eq⟩ := opened_of_created prepared.toSettled created
    have left := left_of_intact prepared.toSettled eq (functionBody_ends ho _ _ lowered)
    obtain ⟨entry, skel⟩ := left.skeleton
    obtain ⟨d, isFn⟩ := skel.laid.function
    have gone := removeFunction_ok skel.consistent (lt_of_kind? isFn) removing
    have typed : final.left.graph.Typed := (prepared.body_finishes fit created).ends _ _ lowered
    refine ⟨settled, typed.rewired gone.graph, ?_⟩
    intro callee mem
    rw [show _ = _ from gone.functions, left.functions] at mem
    obtain ⟨mem, notFunc⟩ := mem_filter.1 mem
    rcases mem_append.1 mem with old | new
    · exact prepared.callees_framed (skel.removed prepared.consistent gone).framed callee old
    · exact absurd (mem_singleton.1 new) (of_decide_eq_true notFunc)

private theorem initialValue_finishes {e : Expr} (ok : s.module.graph.Consistent) (typed : s.module.graph.Typed) :
    Finishes True (initialValue e) s (·.module.graph.Typed) fun val t =>
      t.module.graph.Consistent ∧ t.module.graph.Typed ∧ ∀ v ∈ val, v.index < t.module.graph.values.size := by
  have constant : ∀ {k ty lim}, Graph.Fits ty lim k →
      Finishes True (some <$> build (Builder.addValue k ty lim)) s (·.module.graph.Typed) fun val t =>
        t.module.graph.Consistent ∧ t.module.graph.Typed ∧
          ∀ v ∈ val, v.index < t.module.graph.values.size := by
    intro k ty lim fits
    have added := ok.add_added k ty lim
    rw [map_eq_pure_bind]
    apply Finishes.step (addValue_ok.2 ⟨rfl, rfl⟩)
    refine .pure ⟨added.consistent, typed.add ok fits, ?_⟩
    intro v isValue
    cases isValue
    exact lt_of_kind? ((added.kind? _).trans (if_pos rfl))
  have folded : Finishes True (foldedValue e) s (·.module.graph.Typed) fun val t =>
        t.module.graph.Consistent ∧ t.module.graph.Typed ∧
          ∀ v ∈ val, v.index < t.module.graph.values.size := by
    unfold foldedValue
    split
    next => exact constant trivial
    next => exact .pure ⟨ok, typed, by simp⟩
  unfold initialValue
  split
  next => exact constant trivial
  next => exact folded

section
variable (prepared : s.Prepared defs)
include prepared

private theorem global_finishes (d : Decl) :
    Finishes True (Lower.global d) s (·.module.graph.Typed) fun _ t => t.module.graph.Typed := by
  have made : ∀ {s initial}, s.module.graph.Consistent → s.module.graph.Typed →
      (∀ v ∈ initial, v.index < s.module.graph.values.size) → Finishes True (do
        let global ← build (Builder.createGlobal d.name d.ty.unqualified initial)
        build (Builder.declareGlobal d.name global)) s (·.module.graph.Typed) fun _ t => t.module.graph.Typed := by
    intro s initial valid typed there
    obtain ⟨global, module, created, typed'⟩ := createGlobal_runs valid typed there
    apply Finishes.step created
    exact .build ⟨(), _, rfl, typed'⟩
  unfold Lower.global withContext
  apply Finishes.between
  cases d.initializer with
  | none =>
    exact @made { s with module.contexts := d.location :: s.module.contexts } none prepared.consistent prepared.typed
      (by simp)
  | some e =>
    refine (@initialValue_finishes { s with module.contexts := d.location :: s.module.contexts } e prepared.consistent
      prepared.typed).bind ?_
    intro initial s1 ⟨valid, typed, there⟩
    cases initial with
    | some val => exact made valid typed there
    | none =>
      have failed : Finishes True (fail (.nonConstantInitializer d.name e.location) : Lower (Option ValueId)) s1
          (·.module.graph.Typed) fun _ _ => False := .fail fun _ => typed
      exact failed.bind fun _ _ never => never.elim

theorem global {d : Decl} (ran : (Lower.global d).run s = .ok (res, t)) : t.Prepared defs := by
  have run := global_run prepared.consistent ran
  have settled := (global_continues prepared.toSettled run).settled
  have typed := (prepared.global_finishes d).ends res t ran
  refine ⟨settled, ?_, ?_⟩
  · cases res with
    | ok val => exact typed
    | error e => exact typed
  · cases run with
    | failed => exact prepared.callees
    | made data acc k => exact prepared.callees_framed data.framed

private theorem item_runs (fit : ∀ f, i = .func f → f.Fit defs) :
    ∃ res t, (Lower.item i).run s = .ok (res, t) := by
  cases i with
  | func f => exact prepared.function_runs (fit f rfl)
  | global d => exact (prepared.global_finishes d).runs trivial

theorem item (fit : ∀ f, i = .func f → f.Fit defs)
    (ran : (Lower.item i).run s = .ok (res, t)) : t.Prepared defs := by
  cases i with
  | func f => exact prepared.function (fit f rfl) (function_run ran)
  | global d => exact prepared.global ran

theorem outcomes {items : List Item} (fit : ∀ f, .func f ∈ items → f.Fit defs) :
    ∃ rs t, s.outcomes items = .ok (rs, t) := by
  induction items generalizing s with
  | nil => exact ⟨[], s, rfl⟩
  | cons i tl ih =>
    have first : ∀ f, i = .func f → f.Fit defs := fun f eq => fit f (eq ▸ mem_cons_self)
    obtain ⟨res, mid, ran⟩ := prepared.item_runs first
    obtain ⟨rs, t, followed⟩ := ih (prepared.item first ran) fun f mem => fit f (mem_cons_of_mem _ mem)
    exact ⟨res :: rs, t, bind_eq_ok.2 ⟨(res, mid), ran, bind_eq_ok.2 ⟨_, followed, rfl⟩⟩⟩

end

theorem start (n : String) : (Lowering.start n).Prepared defs where
  toSettled := settled_start n
  typed := ⟨fun v k ty lim hit => by cases hit⟩
  callees callee mem := by cases mem

end Lowering.Prepared

namespace Program
variable {f : FuncDef} {p : Program}

def functions (p : Program) : List FuncDef :=
  p.items.filterMap fun
    | .func f => some f
    | .global _ => none

/-- No parameter and no local variable is void, and every call passes as many arguments as every function of
that name has parameters. No list of parameters is longer than memory allows. -/
structure Sensible (p : Program) : Prop where
  params : ∀ f ∈ p.functions, ∀ param ∈ f.params, param.ty.isVoid = false
  locals : ∀ f ∈ p.functions, ∀ d ∈ f.body.decls, d.ty.isVoid = false
  calls : ∀ f ∈ p.functions, ∀ e ∈ f.body.exprs, ∀ call ∈ e.calls, ∀ callee ∈ p.functions,
    callee.name = call.1 → callee.params.length = call.2
  short : ∀ f ∈ p.functions, f.params.length < 2 ^ 63

theorem Sensible.fit (sensible : p.Sensible) (defined : f ∈ p.functions) : f.Fit p.functions :=
  ⟨defined, sensible.params f defined, ⟨sensible.locals f defined, sensible.calls f defined⟩, sensible.short f defined⟩

end Program

end Midend
