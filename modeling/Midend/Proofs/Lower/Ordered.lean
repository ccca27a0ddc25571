import Midend.Proofs.Flow.Whole
import Midend.Proofs.Lower.Parallel
import Midend.Proofs.Lower.Tracked

/-! After every item, mistakes or not, the functions of the module are in order, and the names of
the global scope stand for what the module lists. -/
namespace Midend
open List Graph

namespace Graph
variable {base g : Graph} {fs gs globals' : List ValueId} {fn : ValueId}
variable {v : ValueId}

private theorem WellFormed.lt_of_part (wf : g.WellFormed fn) (part : g.Part fn v) : v.index < g.values.size := by
  cases part with
  | self => exact wf.inside
  | block mem =>
    obtain ⟨d, hit⟩ := wf.blocks v mem
    exact lt_of_kind? hit
  | inst mem isIn =>
    obtain ⟨d, hit⟩ := wf.insts _ mem v isIn
    exact lt_of_kind? hit

theorem Extends.beside (extension : base.Extends g)
    (apart : ∀ user b, base.values.size ≤ user.index → base.isBlock b → some b ∉ g.operandsOf user) :
    Beside (base.values.size ≤ ·.index) base g where
  consistent := extension.consistent
  kind? v old := extension.framed.kind? v (Nat.lt_of_not_le old)
  operandsOf v old := extension.framed.operandsOf v (Nat.lt_of_not_le old)
  data v k hit _ _ := (extension.framed.kind? v (lt_of_kind? hit)).trans hit
  refs user b hb held := by
    left
    rcases Nat.lt_or_ge user.index base.values.size with old | new
    · rwa [extension.framed.operandsOf user old] at held
    · exact absurd held (apart user b new hb)

theorem DataAdded.beside (more : base.DataAdded g) : Beside (base.values.size ≤ ·.index) base g := by
  refine more.extension.beside ?_
  intro user b new hb held
  exact absurd (lt_of_isBlock hb) (Nat.not_lt_of_le (more.own user b new held))

namespace Orderly

theorem away (orderly : base.Orderly fs gs) {other : ValueId} (mem : other ∈ fs) (v : ValueId)
    (part : base.Part other v) : ¬ base.values.size ≤ v.index :=
  Nat.not_le_of_lt ((orderly.whole other mem).toWellFormed.lt_of_part part)

theorem extended (orderly : base.Orderly fs gs) (beside : Beside (base.values.size ≤ ·.index) base g)
    (more : gs ⊆ globals') : g.Orderly fs globals' where
  nodup := orderly.nodup
  whole other mem := beside.whole (orderly.away mem) (List.Subset.refl _) more (orderly.whole other mem)
  apart one mem other listed' ne v part part' :=
    orderly.apart one mem other listed' ne v (beside.part_of (orderly.away mem) part)
      (beside.part_of (orderly.away listed') part')

theorem snoc (orderly : base.Orderly fs gs) (beside : Beside (base.values.size ≤ ·.index) base g)
    (whole : g.Whole (fs ++ [fn]) gs fn) (above : ∀ v, g.Part fn v → base.values.size ≤ v.index) :
    g.Orderly (fs ++ [fn]) gs := by
  have old : ∀ other ∈ fs, ∀ v, g.Part other v → v.index < base.values.size := by
    intro other mem v part
    exact Nat.lt_of_not_le (orderly.away mem v (beside.part_of (orderly.away mem) part))
  refine ⟨?_, ?_, ?_⟩
  · refine orderly.nodup.append (nodup_singleton fn) ?_
    intro other mem new
    rw [mem_singleton.1 new] at mem
    exact absurd (old fn mem fn .self) (Nat.not_lt_of_le (above fn .self))
  · intro other mem
    rcases mem_append.1 mem with pre | new
    · exact beside.whole (orderly.away pre) (subset_append_left _ _) (List.Subset.refl _)
        (orderly.whole other pre)
    · rw [mem_singleton.1 new]
      exact whole
  · intro one mem other listed' ne v part part'
    rcases mem_append.1 mem with pre | new
    · rcases mem_append.1 listed' with before' | new'
      · exact orderly.apart one pre other before' ne v (beside.part_of (orderly.away pre) part)
          (beside.part_of (orderly.away before') part')
      · rw [mem_singleton.1 new'] at part'
        exact absurd (old one pre v part) (Nat.not_lt_of_le (above v part'))
    · rw [mem_singleton.1 new] at part ne
      rcases mem_append.1 listed' with before' | new'
      · exact absurd (old other before' v part') (Nat.not_lt_of_le (above v part))
      · exact ne (mem_singleton.1 new').symm

end Orderly

def Declared (g : Graph) (functions globals : List ValueId) (v : ValueId) : Prop :=
  (∃ name, g.kind? v = some (.global name) ∧ v ∈ globals) ∨ ∃ data, g.kind? v = some (.function data) ∧ v ∈ functions

theorem Declared.extended {functions' : List ValueId} (declared : base.Declared fs gs v)
    (framed : base.Framed g) (more : fs ⊆ functions') (moreGlobals : gs ⊆ globals') :
    g.Declared functions' globals' v := by
  rcases declared with ⟨n, hit, mem⟩ | ⟨d, hit, mem⟩
  · exact .inl ⟨n, (framed.kind? v (lt_of_kind? hit)).trans hit, moreGlobals mem⟩
  · exact .inr ⟨d, (framed.kind? v (lt_of_kind? hit)).trans hit, more mem⟩

theorem Declared.shared {v : ValueId} (declared : g.Declared fs gs v) : g.Shared fs gs fn v := by
  rcases declared with ⟨n, hit, mem⟩ | ⟨d, hit, mem⟩
  · exact .global hit mem
  · exact .function hit mem

end Graph

namespace Lowering
variable {s t : Lowering}

structure Ordered (s : Lowering) : Prop extends s.Settled where
  orderly : s.module.graph.Orderly s.module.functions s.module.globals
  declared : ∀ binding ∈ s.module.symbols.outermost,
    s.module.graph.Declared s.module.functions s.module.globals binding.2

theorem ordered_start (n : String) : (start n).Ordered where
  toSettled := settled_start n
  orderly := ⟨.nil, (fun _ mem => by cases mem), (fun _ mem => by cases mem)⟩
  declared _ bound := by cases bound

theorem Ordered.global {d : Decl} {res : Except LowerError Unit} (ord : s.Ordered)
    (run : Lower.GlobalRun d s res t) : t.Ordered := by
  have continues := Lower.global_continues ord.toSettled run
  refine ⟨continues.settled, ?_, ?_⟩
  · cases run with
    | failed => exact ord.orderly
    | made data => exact ord.orderly.extended data.beside (subset_append_left _ _)
  · cases run with
    | failed => exact ord.declared
    | made data _ k =>
      intro binding lt
      rcases mem_cons.1 lt with rfl | old
      · exact .inl ⟨_, k, by simp⟩
      · exact (ord.declared binding old).extended data.framed (List.Subset.refl _) (subset_append_left _ _)

section Function
variable {f : FuncDef} {fn : ValueId} {args : List ValueId} {module : Module} {ctx : List Location} {final : Lowering}
variable {m : Module}

theorem Ordered.primed (ord : s.Ordered) (ho : Lower.Opened s.module.graph (s.entering f.name fn module) fn f args)
    (same : module = { s.module with contexts := ctx, graph := module.graph, functions := s.module.functions ++ [fn] }) :
    Lower.Primed (s.entering f.name fn module) fn := by
  have functions : module.functions = s.module.functions ++ [fn] := by rw [same]
  have gs : module.globals = s.module.globals := by rw [same]
  have symbols : module.symbols = s.module.symbols := by rw [same]
  have framed : s.module.graph.Framed module.graph := ho.added.framed
  have k : module.graph.kind? fn = some (.function ⟨f.name, args⟩) := ho.added.kind?
  refine ⟨⟨?_, ?_⟩, ?_⟩
  · intro sc member binding lt
    rcases mem_cons.1 member with rfl | member
    · cases lt
    · rw [show (module.symbols.insertGlobal f.name fn).inner = [] from symbols ▸ ord.flat] at member
      cases member
  · intro binding lt
    show module.graph.Shared module.functions module.globals fn binding.2
    rw [functions, gs]
    rcases mem_cons.1 lt with rfl | old
    · exact .function k (by simp)
    · exact ((ord.declared binding (symbols ▸ old)).extended framed (subset_append_left _ _)
        (List.Subset.refl _)).shared
  · intro callee mem
    rw [show (s.entering f.name fn module).module.functions = _ from functions] at mem
    rcases mem_append.1 mem with old | new
    · obtain ⟨d, hit⟩ := (ord.functions callee old).1.function
      exact ⟨d, (framed.kind? _ (lt_of_kind? hit)).trans hit⟩
    · rw [mem_singleton.1 new]
      exact ⟨_, k⟩

theorem Ordered.kept (ord : s.Ordered)
    (created : Builder.createFunction f.name f.ty (f.params.map (·.name)) { s.module with contexts := ctx } = .ok (fn, module))
    (lowered : (Lower.functionBody fn f).run (s.entering f.name fn module) = .ok (.ok (), final)) :
    final.module.graph.Orderly (s.module.functions ++ [fn]) s.module.globals := by
  obtain ⟨⟨args, ho⟩, eq⟩ := Lower.opened_of_created ord.toSettled created
  obtain ⟨intact, wf, _⟩ := Lower.functionBody_ends ho _ _ lowered
  obtain ⟨av, traced⟩ := Lower.functionBody_traced ho (ord.primed ho eq) _ _ lowered
  have skel := intact.skeleton
  have functions : module.functions = s.module.functions ++ [fn] := by rw [eq]
  have gs : module.globals = s.module.globals := by rw [eq]
  have tracked := traced.tracked skel ord.consistent
  have housed := traced.housed skel
  have above : ∀ v, final.module.graph.Part fn v → s.module.graph.values.size ≤ v.index := by
    intro v part
    cases part with
    | self => exact skel.laid.above
    | block mem => exact ((skel.laid.blocks v).1 mem).1
    | inst mem isIn => exact (skel.coded.listed _ v ((skel.laid.blocks _).1 mem).1 isIn).1
  have beside : Graph.Beside (s.module.graph.values.size ≤ ·.index) s.module.graph final.module.graph := by
    refine skel.extension.beside ?_
    intro user b new hb held
    have old := lt_of_isBlock hb
    have still : final.module.graph.isBlock b := by
      rwa [Graph.isBlock, show final.module.graph.kind? b = _ from skel.framed.kind? b old]
    have mem := traced.own_blocks skel new still held
    exact absurd old (Nat.not_lt_of_le ((skel.laid.blocks b).1 mem).1)
  have whole : final.module.graph.Whole module.functions module.globals fn := ⟨wf, ⟨_, tracked⟩, housed⟩
  rw [functions, gs] at whole
  exact ord.orderly.snoc beside whole above

theorem Ordered.unlisted (ord : s.Ordered) (new : s.module.graph.values.size ≤ fn.index) :
    fn ∉ s.module.functions := fun mem =>
  absurd (ord.functions fn mem).1.inside (Nat.not_lt_of_le new)

private theorem removed_beside {entry : ValueId} (ok : s.module.graph.Consistent)
    (skel : s.module.graph.Skeleton m.graph fn entry) (gone : Builder.Removed m module fn) :
    Graph.Beside (s.module.graph.values.size ≤ ·.index) s.module.graph module.graph := by
  refine (skel.removed ok gone).beside ?_
  intro user b new hb held
  rw [gone.graph.operandsOf] at held
  have held := (mem_filter.1 held).1
  split at held
  next => cases held
  next outside =>
    have still : m.graph.isBlock b := by
      rwa [Graph.isBlock, skel.framed.kind? b (lt_of_isBlock hb)]
    refine outside ?_
    rcases skel.wired.references user b new still held with isFunc | userBlock | ends
    · exact .inl isFunc
    · exact .inr (.inl ((skel.laid.blocks user).2 ⟨new, userBlock⟩))
    · obtain ⟨home, mem, isIn⟩ := skel.home_of_isTerminator new ends
      exact .inr (.inr (mem_flatMap.2 ⟨home, mem, isIn⟩))

structure Restored (s : Lowering) (f : FuncDef) (m : Module) : Prop where
  extension : s.module.graph.Extends m.graph
  beside : Graph.Beside (s.module.graph.values.size ≤ ·.index) s.module.graph m.graph
  limits : ∀ v, v.index < s.module.graph.values.size → m.graph.limit? v = s.module.graph.limit? v
  functions : m.functions = s.module.functions
  globals : m.globals = s.module.globals
  symbols : ∃ func, m.symbols = (s.module.symbols.insertGlobal f.name func).remove f.name
  contexts : m.contexts = f.location :: s.module.contexts
  idle : m.current = none ∧ m.insertPoint = none
  report : s.module.report.diagnostics <+: m.report.diagnostics

/-- A function with a mistake leaves nothing but its name and its reports. -/
theorem Ordered.restored {module' : Module} {e : LowerError} (ord : s.Ordered)
    (created : Builder.createFunction f.name f.ty (f.params.map (·.name))
      { s.module with contexts := f.location :: s.module.contexts } = .ok (fn, module))
    (lowered : (Lower.functionBody fn f).run (s.entering f.name fn module) = .ok (.error e, final))
    (removing : Builder.removeFunction fn final.left = .ok ((), module')) : s.Restored f module' := by
  obtain ⟨⟨args, ho⟩, eq⟩ := Lower.opened_of_created ord.toSettled created
  have left := Lower.left_of_intact ord.toSettled eq (Lower.functionBody_ends ho _ _ lowered)
  obtain ⟨entry, skel⟩ := left.skeleton
  obtain ⟨keeps, ctx, report⟩ := Lower.functionBody_keeps ho.added.consistent lowered
  have k : final.left.graph.kind? fn = some (.function ⟨f.name, args⟩) :=
    keeps.functions fn _ ho.added.kind?
  have gone := Builder.removeFunction_ok skel.consistent (lt_of_kind? k) removing
  have idle := gone.idle left.idle.1
  have lt : final.left.symbols = s.module.symbols.insertGlobal f.name fn := by
    show (⟨final.left.symbols.inner, final.left.symbols.outermost⟩ : ScopeTable ValueId) = ⟨s.module.symbols.inner, _⟩
    rw [left.flat, left.outermost, ord.flat]
  refine ⟨skel.removed ord.consistent gone, removed_beside ord.consistent skel gone, ?_, ?_,
    gone.globals.trans left.globals, ⟨fn, ?_⟩, ?_, ⟨idle.1, idle.2.trans left.idle.2⟩, ?_⟩
  · intro v old
    obtain ⟨lim, hit⟩ : ∃ lim, s.module.graph.limit? v = some lim := by
      obtain ⟨d, hit⟩ := Option.isSome_iff_exists.1 (bare_isSome.2 old)
      exact ⟨_, by rw [Graph.limit?, hit]; rfl⟩
    rw [gone.graph.limit?, hit]
    exact keeps.limits v lim ((ho.added.limit? v old).trans hit)
  · rw [gone.functions, left.functions, filter_append, filter_eq_self.2]
    · simp
    · intro other mem
      refine decide_eq_true fun isFunc => ?_
      exact ord.unlisted skel.laid.above (isFunc ▸ mem)
  · rw [gone.symbols _ k, lt, if_pos (by simp [ScopeTable.lookup, ScopeTable.insertGlobal, ord.flat])]
  · rw [gone.contexts]
    refine ctx.trans ?_
    show module.contexts = _
    rw [eq]
  · have reported : s.module.report = module.report := by rw [eq]
    rw [gone.report, reported]
    exact report

theorem Restored.declared (restored : s.Restored f m) (ord : s.Ordered) :
    ∀ binding ∈ m.symbols.outermost, m.graph.Declared m.functions m.globals binding.2 := by
  obtain ⟨fn, symbols⟩ := restored.symbols
  intro binding lt
  rw [symbols] at lt
  obtain ⟨mem, other⟩ := mem_filter.1 lt
  rw [restored.functions, restored.globals]
  rcases mem_cons.1 mem with rfl | old
  · simp at other
  · exact (ord.declared binding old).extended restored.extension.framed (List.Subset.refl _) (List.Subset.refl _)

theorem Ordered.function {res : Except LowerError Unit} (ord : s.Ordered)
    (run : Lower.FunctionRun f s res t) : t.Ordered := by
  have continues := Lower.function_continues ord.toSettled run
  cases run with
  | redefined => exact ⟨continues.settled, ord.orderly, ord.declared⟩
  | @kept fn module final unknown created lowered =>
    obtain ⟨⟨args, ho⟩, eq⟩ := Lower.opened_of_created ord.toSettled created
    have left := Lower.left_of_intact ord.toSettled eq (Lower.functionBody_ends ho _ _ lowered).1
    obtain ⟨entry, skel⟩ := left.skeleton
    have orderly := ord.kept created lowered
    refine ⟨continues.settled, ?_, ?_⟩
    · show final.left.graph.Orderly final.left.functions final.left.globals
      rw [left.functions, left.globals]
      exact orderly
    · show ∀ binding ∈ final.left.symbols.outermost,
        final.left.graph.Declared final.left.functions final.left.globals binding.2
      rw [left.functions, left.globals, left.outermost]
      intro binding lt
      rcases mem_cons.1 lt with rfl | old
      · obtain ⟨d, isFn⟩ := skel.laid.function
        exact .inr ⟨d, isFn, by simp⟩
      · exact (ord.declared binding old).extended skel.framed (subset_append_left _ _) (List.Subset.refl _)
  | dropped unknown created lowered removing =>
    have restored := ord.restored created lowered removing
    refine ⟨continues.settled, ?_, restored.declared ord⟩
    dsimp only
    rw [restored.functions, restored.globals]
    exact ord.orderly.extended restored.beside (List.Subset.refl _)

end Function

theorem Ordered.item {i : Item} (ord : s.Ordered) (done : s.item i = .ok t) : t.Ordered := by
  obtain ⟨⟨res, final⟩, ran, rfl⟩ := map_eq_ok.1 done
  cases i with
  | func f => exact ord.function (Lower.function_run ran)
  | global d => exact ord.global (Lower.global_run ord.consistent ran)

theorem Ordered.program {p : Program} (ord : s.Ordered) (done : s.program p = .ok t) : t.Ordered := by
  obtain ⟨items⟩ := p
  induction items generalizing s with
  | nil =>
    cases done
    exact ord
  | cons i tl ih =>
    obtain ⟨mid, first, next⟩ := bind_eq_ok.1 done
    exact ih (ord.item first) next

end Lowering
end Midend
