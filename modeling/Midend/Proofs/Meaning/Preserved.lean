import Midend.Proofs.Lower.Unaffected
import Midend.Proofs.Meaning.Extended
import Midend.Proofs.Meaning.Function

/-! Lowering preserves the meaning of functions that compute with integers and call nothing. What
the names outside of the function stand for is read off the items before it. -/
namespace Midend
open List Graph

structure Outer where
  names : Bindings Variable := []
  functions : Bindings Ty := []

namespace Outer

/-- The names after an item, of which something has become. A function with a mistake takes its
name along, unless another function has the name. -/
def item (outer : Outer) : Item → Except LowerError Unit → Outer
  | .func f, .ok () => ⟨(f.name, ⟨.global f.name, f.ty⟩) :: outer.names, (f.name, f.ty) :: outer.functions⟩
  | .func f, .error _ =>
    if (outer.functions.lookup f.name).isSome then outer else { outer with names := outer.names.filter (·.1 ≠ f.name) }
  | .global d, .ok () => { outer with names := (d.name, ⟨.global d.name, d.ty⟩) :: outer.names }
  | .global _, .error _ => outer

def items (outer : Outer) : List Item → List (Except LowerError Unit) → Outer
  | i :: rest, result :: results => (outer.item i result).items rest results
  | _, _ => outer

end Outer

variable {t g : Graph} {ns : Bindings Variable} {f : FuncDef} {fn : ValueId} {outer : Outer} {s : Lowering}

structure Graph.Denotes (g : Graph) (name : String) (found : Variable) (v : ValueId) : Prop where
  place : found.place = .global name
  kind : (g.kind? v = some (.global name) ∧ g.ty? v = some (.pointer found.ty.unqualified)) ∨
    (∃ data, g.kind? v = some (.function data)) ∧ g.ty? v = some found.ty ∧ found.ty.isInteger = false

theorem Graph.Denotes.framed {n : String} {hit : Variable} {v : ValueId} (denotes : g.Denotes n hit v)
    (framed : g.Framed t) : t.Denotes n hit v := by
  refine ⟨denotes.place, ?_⟩
  rcases denotes.kind with ⟨isGlobal, isTy⟩ | ⟨⟨d, isFn⟩, other⟩
  · have into := lt_of_kind? isGlobal
    exact .inl ⟨(framed.kind? v into).trans isGlobal, (framed.ty? v into).trans isTy⟩
  · have into := lt_of_kind? isFn
    exact .inr ⟨⟨d, (framed.kind? v into).trans isFn⟩, (framed.ty? v into).trans other.1, other.2⟩

private theorem Graph.denotes_lookup {lt : Bindings ValueId}
    (eq : List.Forall₂ (fun named lt => named.1 = lt.1 ∧ g.Denotes named.1 named.2 lt.2) ns lt)
    (n : String) : Option.Rel (g.Denotes n) (ns.lookup n) (lt.lookup n) := by
  induction eq with
  | nil => exact .none
  | @cons a b _ _ both _ ih =>
    rw [lookup_cons, lookup_cons, ← both.1]
    split
    next eq =>
      rw [eq_of_beq eq]
      exact .some both.2
    next => exact ih

private theorem Module.findFunction_append {m t : Module} {more : List ValueId}
    (fs : t.functions = m.functions ++ more) (framed : m.graph.Framed t.graph)
    (into : ∀ fn ∈ m.functions, fn.index < m.graph.values.size) (n : String) :
    t.findFunction n = (m.findFunction n).or (more.find? fun id =>
      match t.graph.kind? id with
      | some (.function f) => f.name == n
      | _ => false) := by
  rw [Module.findFunction, fs, find?_append, Module.findFunction]
  congr 1
  refine find?_congr fun fn mem => ?_
  rw [framed.kind? fn (into fn mem)]

namespace Lowering
variable {s t : Lowering} {outer : Outer}

structure Knows (s : Lowering) (outer : Outer) : Prop extends s.Ordered where
  names : List.Forall₂ (fun named bound => named.1 = bound.1 ∧ s.module.graph.Denotes named.1 named.2 bound.2)
    outer.names s.module.symbols.outermost
  listed : ∀ name, Option.Rel (fun ty func => s.module.graph.ty? func = some ty) (outer.functions.lookup name)
    (s.module.findFunction name)

theorem knows_start (n : String) : (start n).Knows {} :=
  ⟨ordered_start n, .nil, fun _ => .none⟩

namespace Knows
variable {g : Graph}

section
variable (knows : s.Knows outer)
include knows

theorem lookup (n : String) :
    Option.Rel (s.module.graph.Denotes n) (outer.names.lookup n) (s.module.symbols.outermost.lookup n) :=
  denotes_lookup knows.names n

private theorem isSome_listed (n : String) : (outer.functions.lookup n).isSome = (s.module.findFunction n).isSome := by
  have related := knows.listed n
  generalize outer.functions.lookup n = ty at related
  generalize s.module.findFunction n = fn at related
  cases related <;> rfl

theorem inside : ∀ fn ∈ s.module.functions, fn.index < s.module.graph.values.size :=
  fun fn mem => (knows.functions fn mem).1.inside

private theorem framed_names (framed : s.module.graph.Framed g) :
    List.Forall₂ (fun named lt => named.1 = lt.1 ∧ g.Denotes named.1 named.2 lt.2)
      outer.names s.module.symbols.outermost :=
  knows.names.imp fun _ _ both => ⟨both.1, both.2.framed framed⟩

private theorem framed_types (framed : s.module.graph.Framed g) (n : String) :
    Option.Rel (fun ty fn => g.ty? fn = some ty) (outer.functions.lookup n) (s.module.findFunction n) := by
  have related := knows.listed n
  generalize outer.functions.lookup n = ty at related
  generalize isFound : s.module.findFunction n = fn at related
  cases related with
  | some isTy => exact .some ((framed.ty? _ (knows.inside _ (mem_of_find?_eq_some isFound))).trans isTy)
  | none => exact .none

private theorem framed_listed (framed : s.module.graph.Framed t.module.graph)
    (eq : t.module.functions = s.module.functions) (n : String) :
    Option.Rel (fun ty fn => t.module.graph.ty? fn = some ty) (outer.functions.lookup n)
      (t.module.findFunction n) := by
  have fs : t.module.functions = s.module.functions ++ [] := by
    rw [eq, append_nil]
  rw [Module.findFunction_append fs framed knows.inside, find?_nil, Option.or_none]
  exact knows.framed_types framed n

theorem global {d : Decl} {res : Except LowerError Unit}
    (run : Lower.GlobalRun d s res t) : t.Knows (outer.item (.global d) res) := by
  have ord := knows.toOrdered.global run
  cases run with
  | failed => exact ⟨ord, knows.names, knows.listed⟩
  | made data _ k isTy =>
    exact ⟨ord, .cons ⟨rfl, rfl, .inl ⟨k, isTy⟩⟩ (knows.framed_names data.framed),
      knows.framed_listed data.framed rfl⟩

end

section Functions
variable {f : FuncDef} {fn : ValueId} {module : Module} {final : Lowering}

private theorem added_types (knows : s.Knows outer) {m : Module} {args : List ValueId}
    (unknown : s.module.findFunction f.name = none) (fs : m.functions = s.module.functions ++ [fn])
    (framed : s.module.graph.Framed m.graph) (k : m.graph.kind? fn = some (.function ⟨f.name, args⟩))
    (isTy : m.graph.ty? fn = some f.ty) (n : String) :
    Option.Rel (fun ty fn => m.graph.ty? fn = some ty) ((outer.item (.func f) (.ok ())).functions.lookup n)
      (m.findFunction n) := by
  rw [Module.findFunction_append fs framed knows.inside, find?_singleton, k]
  show Option.Rel _ (List.lookup n ((f.name, f.ty) :: outer.functions)) ((s.module.findFunction n).or
    (if f.name == n then some fn else none))
  rw [lookup_cons, Bool.beq_comm]
  by_cases isName : f.name = n
  · rw [← isName, unknown]
    simpa using isTy
  · rw [beq_eq_false_iff_ne.2 isName]
    simpa using knows.framed_types framed n

theorem kept (knows : s.Knows outer) (unknown : s.module.findFunction f.name = none)
    (created : Builder.createFunction f.name f.ty (f.params.map (·.name))
      { s.module with contexts := f.location :: s.module.contexts } = .ok (fn, module))
    (lowered : (Lower.functionBody fn f).run (s.entering f.name fn module) = .ok (.ok (), final)) :
    List.Forall₂ (fun named lt => named.1 = lt.1 ∧ final.left.graph.Denotes named.1 named.2 lt.2)
        (outer.item (.func f) (.ok ())).names final.left.symbols.outermost ∧
      final.left.findFunction f.name = some fn ∧
      ∀ n, Option.Rel (fun ty fn => final.left.graph.ty? fn = some ty)
        ((outer.item (.func f) (.ok ())).functions.lookup n) (final.left.findFunction n) := by
  obtain ⟨⟨args, ho⟩, eq⟩ := Lower.opened_of_created knows.toSettled created
  have left := Lower.left_of_intact knows.toSettled eq (Lower.functionBody_ends ho _ _ lowered).1
  obtain ⟨entry, skel⟩ := left.skeleton
  obtain ⟨keeps, _⟩ := Lower.functionBody_keeps ho.added.consistent lowered
  have k : final.left.graph.kind? fn = some (.function ⟨f.name, args⟩) := keeps.functions _ _ ho.added.kind?
  have isTy : final.left.graph.ty? fn = some f.ty := keeps.types _ _ ho.added.ty?
  refine ⟨?_, ?_, knows.added_types unknown left.functions skel.framed k isTy⟩
  · rw [left.outermost]
    exact .cons ⟨rfl, rfl, .inr ⟨⟨_, k⟩, isTy, rfl⟩⟩ (knows.framed_names skel.framed)
  · rw [Module.findFunction_append left.functions skel.framed knows.inside, unknown, find?_singleton, k]
    simp

theorem function {res : Except LowerError Unit} (knows : s.Knows outer) (run : Lower.FunctionRun f s res t) :
    t.Knows (outer.item (.func f) res) := by
  have ordered := knows.toOrdered.function run
  cases run with
  | redefined known =>
    have eq : outer.item (.func f) (.error (.functionRedefined f.name f.location)) = outer :=
      if_pos ((knows.isSome_listed f.name).trans known)
    rw [eq]
    exact ⟨ordered, knows.names, knows.listed⟩
  | kept unknown created lowered =>
    obtain ⟨names, _, mem⟩ := knows.kept unknown created lowered
    exact ⟨ordered, names, mem⟩
  | @dropped _ _ _ _ e unknown created lowered removing =>
    have restored := knows.toOrdered.restored created lowered removing
    have framed := restored.extension.framed
    have fresh : ¬ (outer.functions.lookup f.name).isSome := by
      rw [knows.isSome_listed, unknown]
      exact Bool.false_ne_true
    have eq : outer.item (.func f) (.error e) = { outer with names := outer.names.filter (·.1 ≠ f.name) } := if_neg fresh
    rw [eq]
    refine ⟨ordered, ?_, knows.framed_listed framed restored.functions⟩
    obtain ⟨other, symbols⟩ := restored.symbols
    dsimp only
    rw [symbols]
    show List.Forall₂ _ _ (((f.name, other) :: s.module.symbols.outermost).filter (·.1 ≠ f.name))
    rw [filter_cons_of_neg (by simp)]
    refine rel_filter ?_ (knows.framed_names framed)
    intro named bound both
    dsimp only
    rw [both.1]

end Functions

theorem outcomes {items : List Item} {rs : List (Except LowerError Unit)} (knows : s.Knows outer)
    (ran : s.outcomes items = .ok (rs, t)) : t.Knows (outer.items items rs) := by
  induction items generalizing s outer rs with
  | nil =>
    cases ran
    exact knows
  | cons i tl ih =>
    obtain ⟨⟨first, mid⟩, taken, ran⟩ := bind_eq_ok.1 ran
    obtain ⟨⟨others, last⟩, following, ran⟩ := bind_eq_ok.1 ran
    cases ran
    cases i with
    | func f => exact ih (knows.function (Lower.function_run taken)) following
    | global d => exact ih (knows.global (Lower.global_run knows.consistent taken)) following

end Knows

theorem Settled.outcomes {items : List Item} {rs : List (Except LowerError Unit)} (settled : s.Settled)
    (ran : s.outcomes items = .ok (rs, t)) : s.Continues t := by
  refine settled.program (p := ⟨items⟩) ?_
  rw [program_eq_outcomes, ran]
  rfl

end Lowering

/-- The cells of the integers outside of functions hold what the source says. -/
def Module.Stored (m : Module) (names : Bindings Variable) (globals : String → Option Int)
    (memory : ValueId → Option Datum) : Prop :=
  ∀ name found v, names.lookup name = some found → found.ty.isInteger → m.symbols.lookup name = some v →
    memory v = (globals name).map found.ty.word ∧ ∀ x ∈ globals name, found.ty.Holds x

private theorem Lowering.Knows.site_names {ent : Lowering} (knows : s.Knows outer)
    (lt : ent.module.symbols.outermost = (f.name, fn) :: s.module.symbols.outermost) :
    (Lower.siteOf s.module.graph ent fn).Names ((f.name, ⟨.global f.name, f.ty⟩) :: outer.names) := by
  intro n hit isFound integer
  show hit.place = .global n ∧ ∃ v, ent.module.symbols.outermost.lookup n = some v ∧ _
  rw [lt]
  rw [lookup_cons] at isFound ⊢
  split at isFound
  next =>
    cases isFound
    cases integer
  next other =>
    have related := knows.lookup n
    rw [isFound] at related
    generalize isBound : s.module.symbols.outermost.lookup n = v at related
    cases related with
    | @some _ v denotes =>
      rcases denotes.kind with ⟨isGlobal, isTy⟩ | ⟨_, _, notInteger⟩
      · exact ⟨denotes.place, v, rfl, isGlobal, isTy⟩
      · rw [notInteger] at integer
        cases integer

section Cells
variable {c : Plan} {u : Site} {m : Module} {ns : Bindings Variable}

private theorem Plan.stored_eq (isGlobal : c.global = u.global) (framed : u.base.Framed c.graph)
    (old : u.Names ns) (lookup : ∀ n, m.symbols.lookup n = u.outermost.lookup n)
    (related : ∀ n, Option.Rel (c.graph.Denotes n) (ns.lookup n) (m.symbols.lookup n)) :
    c.Stored = m.Stored ns := by
  funext gs memory
  refine propext ⟨?_, ?_⟩
  · intro stored n hit v isFound integer lt
    obtain ⟨_, w, isBound, k, isTy⟩ := old n hit isFound integer
    obtain rfl : w = v := Option.some.inj (isBound.symm.trans ((lookup n).symm.trans lt))
    have into := lt_of_kind? k
    refine stored n w hit.ty ?_ ⟨.inl ⟨n, (framed.kind? w into).trans k⟩, (framed.ty? w into).trans isTy⟩
    rw [isGlobal]
    exact Site.global_eq_some.2 ⟨isBound, k, _, isTy, hit.ty.alike_unqualified.isInteger ▸ integer⟩
  · intro stored n v ty isCell cell
    rw [isGlobal] at isCell
    obtain ⟨isBound, k, pointee, isTy, integer⟩ := Site.global_eq_some.1 isCell
    have into := lt_of_kind? k
    have denoted := related n
    rw [(lookup n).trans isBound] at denoted
    generalize isFound : ns.lookup n = hit at denoted
    cases denoted with
    | @some hit _ denotes =>
      have ofFound : c.graph.ty? v = some (.pointer hit.ty.unqualified) := by
        rcases denotes.kind with ⟨_, ofFound⟩ | ⟨⟨d, isFn⟩, _⟩
        · exact ofFound
        · cases isFn.symm.trans ((framed.kind? v into).trans k)
      have eq := Option.some.inj (ofFound.symm.trans ((framed.ty? v into).trans isTy))
      injection eq with eq
      have alike : hit.ty.Alike ty := by
        have eq := Option.some.inj (ofFound.symm.trans cell.ty)
        injection eq
      have isInteger : hit.ty.isInteger := by
        rw [← hit.ty.alike_unqualified.isInteger, eq]
        exact integer
      obtain ⟨content, h⟩ := stored n hit v isFound isInteger ((lookup n).trans isBound)
      refine ⟨?_, fun x held => (alike.holds x).1 (h x held)⟩
      rw [content, alike.word]

end Cells

theorem FuncDef.Agrees.framed {xs : List Int} {gs : String → Option Int} {memory : ValueId → Option Datum}
    {stored : (String → Option Int) → (ValueId → Option Datum) → Prop}
    (agrees : f.Agrees ns xs gs g fn memory stored) (framed : g.Framed t) (ok : g.Consistent)
    (contained : g.Contained) (into : fn.index < g.values.size) :
    f.Agrees ns xs gs t fn memory stored where
  returns val globals' returned := by
    obtain ⟨memory', returns, kept⟩ := agrees.returns val globals' returned
    exact ⟨memory', (framed.returns_iff ok into contained).2 returns, kept⟩
  returned res memory' returns := agrees.returned res memory' ((framed.returns_iff ok into contained).1 returns)
  sticks := agrees.sticks.trans (framed.sticks_iff ok into contained).symm
  diverges := agrees.diverges.trans (framed.diverges_iff ok into contained).symm

structure Plan.Realizes (plan : Plan) (f : FuncDef) (outer : Outer) (m : Module) (func : ValueId) : Prop
    extends plan.Encloses f outer.names where
  graph : plan.graph = m.graph
  found : m.findFunction f.name = some func
  inside : func.index < m.graph.values.size
  head : (m.graph.layout func).head? = some plan.entry
  stored : plan.Stored = m.Stored (outer.item (.func f) (.ok ())).names
  callees : ∀ name, Option.Rel (fun ty callee => plan.graph.ty? callee = some ty)
    ((outer.item (.func f) (.ok ())).functions.lookup name) (plan.callee? name)
  traced : ∃ (site : Site) (avail : ValueId → ValueId → Prop), site.func = func ∧ site.entry = plan.entry ∧
    site.Traced avail m.graph ∧ site.base.Skeleton m.graph func site.entry ∧ site.base.values.size ≤ plan.start

/-- A function that was lowered is realized by its code. -/
theorem Lowering.Knows.lowered {mid : Lowering} (knows : s.Knows outer)
    (lowered : (Lower.function f).run s = .ok (.ok (), mid)) :
    ∃ fn, ∃ c : Plan, c.Realizes f outer mid.module fn := by
  have run := Lower.function_run lowered
  have t := knows.function run
  cases run with
  | @kept fn module final unknown created body =>
    obtain ⟨⟨args, ho⟩, eq⟩ := Lower.opened_of_created knows.toSettled created
    have intact := (Lower.functionBody_ends ho _ _ body).1
    have left := Lower.left_of_intact knows.toSettled eq intact
    have symbols : module.symbols = s.module.symbols := by rw [eq]
    have lt : (s.entering f.name fn module).module.symbols.outermost = (f.name, fn) :: s.module.symbols.outermost := by
      show (f.name, fn) :: module.symbols.outermost = _
      rw [symbols]
    have blank : (s.entering f.name fn module).module.symbols.inner = [[]] := by
      show [] :: module.symbols.inner = _
      rw [symbols, knows.flat]
    have old := knows.site_names lt
    obtain ⟨c, drawn, encloses⟩ := Lower.functionBody_encloses ho blank old _ _ body intact.skeleton
    obtain ⟨av, traced⟩ := Lower.functionBody_traced ho (knows.toOrdered.primed ho eq) _ _ body
    obtain ⟨_, hit, mem⟩ := knows.kept unknown created body
    have lookup : ∀ n, final.left.symbols.lookup n =
        (Lower.siteOf s.module.graph (s.entering f.name fn module) fn).outermost.lookup n := by
      intro n
      rw [ScopeTable.lookup, left.flat, left.outermost]
      exact congrArg (List.lookup n) lt.symm
    refine ⟨fn, c, encloses, drawn.graph, hit, lt_of_kind? intact.skeleton.laid.function.choose_spec, ?_, ?_,
      ?_, _, av, rfl, drawn.entry.symm, traced, intact.skeleton, drawn.start⟩
    · rw [drawn.entry]
      exact intact.skeleton.laid.head
    · refine Plan.stored_eq drawn.global ?_ old lookup ?_
      · rw [drawn.graph]
        exact intact.skeleton.framed
      · intro n
        rw [drawn.graph]
        have related := t.lookup n
        have flat : (List.lookup n final.left.symbols.outermost) = final.left.symbols.lookup n := by
          rw [ScopeTable.lookup, left.flat]
          rfl
        rw [← flat]
        exact related
    · intro n
      have eq : c.callee? n = final.left.findFunction n := by
        rw [Plan.callee?, drawn.functions, drawn.graph, ← intact.functions]
        rfl
      rw [eq, drawn.graph]
      exact mem n

/-- Lowering preserves the meaning of a function that computes with integers and calls nothing. The machine returns
what the source returns, with the same globals; it is stuck where the source is, and goes on where the source does.
Items before and after the function may have mistakes. -/
theorem lowering_preserves_meaning {unit : String} {front back : List Item} {results others : List (Except LowerError Unit)}
    {f : FuncDef} {s middle after : Lowering} (earlier : (Lowering.start unit).outcomes front = .ok (results, s))
    (lowered : (Lower.function f).run s = .ok (.ok (), middle)) (later : middle.outcomes back = .ok (others, after))
    (integral : f.integral (Outer.items {} front results).names) :
    ∃ func, middle.module.findFunction f.name = some func ∧ ∀ xs globals memory,
      List.Forall₂ (fun param x => param.ty.Holds x) f.params xs →
      middle.module.Stored (Outer.item (Outer.items {} front results) (.func f) (.ok ())).names globals memory →
      f.Agrees (Outer.items {} front results).names xs globals after.module.graph func memory
        (middle.module.Stored (Outer.item (Outer.items {} front results) (.func f) (.ok ())).names) := by
  have knows := (Lowering.knows_start unit).outcomes earlier
  obtain ⟨func, plan, realizes⟩ := knows.lowered lowered
  have settled := (knows.function (Lower.function_run lowered)).toSettled
  refine ⟨func, realizes.found, ?_⟩
  intro xs globals memory holds stored
  rw [← realizes.stored] at stored ⊢
  have called : plan.graph.called func memory = some ⟨plan.entry, 0, fun _ => none, memory⟩ := by
    rw [Graph.called, realizes.graph, realizes.head]
    rfl
  have agrees := FuncDef.agrees_of_concludes called (realizes.call integral holds stored)
  rw [realizes.graph] at agrees
  exact agrees.framed (settled.outcomes later).framed settled.consistent settled.contained realizes.inside

def countdown : FuncDef where
  name := "countdown"
  returnType := .int32
  params := [{ name := "n", ty := .uint8 }]
  body := .compound [
    .whileDo (.ofBinary (.compare .greater) (.ofName "n" .uint8) (.ofInt 0)) (.compound [
      .expr (.ofBinary (.assign (some .sub)) (.ofName "n" .uint8) (.ofInt 1)) .unknown,
      .ifElse (.ofBinary (.logic .and) (.ofName "n" .uint8) (.ofBinary (.compare .equal) (.ofName "n" .uint8) (.ofInt 2)))
        (.continueLoop .unknown) none .unknown,
      .expr (.ofBinary (.assign none) (.ofName "g" .int32) (.ofBinary (.arith .sub) (.ofName "g" .int32) (.ofInt 3)))
        .unknown] .unknown) .unknown,
    .ret (some (.ofName "g" .int32)) .unknown] .unknown

def beforeCountdown : List Item := [globalOne, .func callsMissing]

def afterCountdown : List Item := [.global { name := "g", ty := .uint8 }, .func countdown]

def Ending.answered (name : String) : Ending → Option (Option Int × Option Int)
  | .done (.returned value) store => some (value, store (.global name))
  | _ => none

theorem countdown_from_three : ∃ (results others : List (Except LowerError Unit)) (s middle after : Lowering)
    (func : ValueId) (memory : ValueId → Option Datum),
    (Lowering.start "unit").outcomes beforeCountdown = .ok (results, s) ∧
      (Lower.function countdown).run s = .ok (.ok (), middle) ∧ middle.outcomes afterCountdown = .ok (others, after) ∧
      countdown.integral (Outer.items {} beforeCountdown results).names ∧
      middle.module.findFunction "countdown" = some func ∧
      after.module.graph.Returns [.ofInt 8 3] func (fun _ => some (.ofInt 32 10)) (some (.ofInt 32 4)) memory ∧
      ∀ v, middle.module.symbols.lookup "g" = some v → memory v = some (.ofInt 32 4) := by
  obtain ⟨⟨results, s⟩, earlier, found⟩ := @ok_of_toOption_map _ _ _ ((Lowering.start "unit").outcomes beforeCountdown)
    (fun pair => ((Outer.items {} beforeCountdown pair.1).names,
      ((Lower.function countdown).run pair.2).toOption.map fun pair =>
        (pair.1.toOption.isSome, (pair.2.outcomes afterCountdown).toOption.map fun _ => ())))
    ([("g", ⟨.global "g", .int32⟩)], some (true, some ())) (by decide +kernel)
  obtain ⟨named, lowering⟩ := Prod.mk.inj found
  have isNames : (Outer.items {} beforeCountdown results).names = [("g", ⟨.global "g", .int32⟩)] := named
  obtain ⟨⟨result, middle⟩, lowered, found⟩ := ok_of_toOption_map lowering
  obtain ⟨isOk, following⟩ := Prod.mk.inj found
  obtain ⟨⟨others, after⟩, later, _⟩ := ok_of_toOption_map following
  cases result with
  | error e => cases isOk
  | ok value =>
    have integral : countdown.integral (Outer.items {} beforeCountdown results).names := by
      rw [isNames]
      decide +kernel
    obtain ⟨func, isFunc, each⟩ := lowering_preserves_meaning earlier lowered later integral
    have stored : middle.module.Stored (Outer.item (Outer.items {} beforeCountdown results) (.func countdown) (.ok ())).names
        (fun _ => some 10) fun _ => some (.ofInt 32 10) := by
      intro name found v isFound integer _
      rw [Outer.item, isNames] at isFound
      simp only [lookup_cons, lookup_nil] at isFound
      split at isFound
      · cases isFound
        cases integer
      · split at isFound
        · cases isFound
          exact ⟨rfl, fun x isX => by cases isX; rfl⟩
        · cases isFound
    obtain ⟨store, ended, left⟩ : ∃ store, countdown.call [("g", ⟨.global "g", .int32⟩)] 5 [3] (fun _ => some 10) =
        .done (.returned (some 4)) store ∧ store (.global "g") = some 4 := by
      have evaluated : (countdown.call [("g", ⟨.global "g", .int32⟩)] 5 [3] fun _ => some 10).answered "g" =
          some (some 4, some 4) := by decide +kernel
      unfold Ending.answered at evaluated
      split at evaluated
      next value store ended =>
        obtain ⟨rfl, left⟩ := Prod.mk.inj (Option.some.inj evaluated)
        exact ⟨store, ended, left⟩
      next => cases evaluated
    have agrees := each [3] _ _ (.cons rfl .nil) stored
    obtain ⟨memory, returned, kept⟩ := agrees.returns (some 4) _ ⟨5, store, isNames ▸ ended, rfl⟩
    refine ⟨results, others, s, middle, after, func, memory, earlier, lowered, later, integral, isFunc, returned, ?_⟩
    intro v bound
    obtain ⟨content, _⟩ := kept "g" ⟨.global "g", .int32⟩ v (by rw [Outer.item, isNames]; rfl) rfl bound
    exact content.trans (congrArg (Option.map Ty.int32.word) left)

end Midend
