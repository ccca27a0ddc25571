import Midend.Proofs.Graph.Accrued
import Midend.Proofs.Lower.Function
import Midend.Proofs.Lower.Items

/-! Lowering of programs. Between two items nothing is being built, and every function of the
module has its shape; an item with a mistake leaves the functions before it as they are. -/
namespace Midend
open List Builder Graph

namespace Graph
variable {base g t : Graph} {fn entry : ValueId}
variable {global v : ValueId} {initial : Option ValueId} {m : Module} {n : String} {ty : Ty}

structure DataAdded (base g : Graph) : Prop where
  consistent : g.Consistent
  framed : base.Framed g
  data : ∀ v kind, base.values.size ≤ v.index → g.kind? v = some kind → kind.values = []
  own : ∀ user v, base.values.size ≤ user.index → some v ∈ g.operandsOf user →
    base.values.size ≤ v.index

namespace DataAdded

theorem refl (ok : g.Consistent) : g.DataAdded g := by
  refine ⟨ok, .refl g, ?_, ?_⟩
  · intro v k above hit
    exact absurd (lt_of_kind? hit) (Nat.not_lt_of_le above)
  · intro user v above held
    exact absurd (lt_of_mem_operandsOf held) (Nat.not_lt_of_le above)

theorem added (more : base.DataAdded g) {v : ValueId} {k : Kind} {ty : Ty}
    (add : g.Added t v k ty) (free : k.values = []) : base.DataAdded t := by
  refine ⟨add.consistent, more.framed.trans (framed_added add), ?_, ?_⟩
  · intro w other above hit
    rw [add.kind? w] at hit
    split at hit
    next =>
      cases hit
      exact free
    next => exact more.data w other above hit
  · intro user w above held
    rw [add.operandsOf] at held
    exact more.own user w above held

theorem addOperand (more : base.DataAdded g) {user dest : ValueId}
    (wired : g.Rewired t fun v old => if v = user then old ++ [some dest] else old)
    (new : base.values.size ≤ user.index) (own : base.values.size ≤ dest.index) :
    base.DataAdded t := by
  refine ⟨wired.consistent, ⟨?_, ?_, ?_, ?_⟩, ?_, ?_⟩
  · rw [wired.size]
    exact more.framed.size
  · intro v old
    rw [wired.kind?, more.framed.kind? v old]
  · intro v old
    rw [wired.ty?, more.framed.ty? v old]
  · intro v old
    rw [wired.operandsOf, if_neg, more.framed.operandsOf v old]
    rintro rfl
    exact absurd old (Nat.not_lt_of_le new)
  · intro v k above hit
    rw [wired.kind?] at hit
    exact more.data v k above hit
  · intro v w above held
    rw [wired.operandsOf] at held
    split at held
    next =>
      rcases mem_append.1 held with held | isTarget
      · exact more.own v w above held
      · cases mem_singleton.1 isTarget
        exact own
    next => exact more.own v w above held

theorem extension (more : base.DataAdded g) : base.Extends g := by
  have noInst : ∀ v data, base.values.size ≤ v.index → g.kind? v ≠ some (.inst data) :=
    fun v data above hit => absurd (more.data v _ above hit) (by simp [Kind.values])
  refine ⟨more.consistent, more.framed, ?_, ?_, ?_, ?_, ?_⟩
  · intro v k above hit w stands
    rw [more.data v k above hit] at stands
    cases stands
  · intro b i above mem
    obtain ⟨data, hit⟩ := block_of_mem_code mem
    exact absurd (more.data b _ above hit) (by simp [Kind.values])
  · intro i data above hit
    exact absurd hit (noInst i data above)
  · intro user b above old _ held
    exact absurd old (Nat.not_lt_of_le (more.own user b above held))
  · intro branch b above _ isBranch
    obtain ⟨data, hit, _⟩ := inst_of_opcode? isBranch
    exact absurd hit (noInst branch data above)

end DataAdded

/-- Removing a function leaves the graph as it was before, but for values without use. -/
theorem Skeleton.removed {m after : Module} (skel : base.Skeleton m.graph fn entry)
    (valid : base.Consistent) (gone : Builder.Removed m after fn) : base.Extends after.graph := by
  have rewired := gone.graph
  have extension := skel.extension
  have held : ∀ v w, some w ∈ after.graph.operandsOf v → some w ∈ m.graph.operandsOf v := by
    intro v w held
    rw [rewired.operandsOf] at held
    have held := (mem_filter.1 held).1
    split at held
    next => cases held
    next => exact held
  have isBlock : after.graph.isBlock = m.graph.isBlock := by
    funext v
    rw [isBlock, rewired.kind?, isBlock]
  have opcode : after.graph.opcode? = m.graph.opcode? := by
    funext v
    rw [opcode?, rewired.kind?, opcode?]
  have isTerminator : after.graph.isTerminator = m.graph.isTerminator := by
    funext v
    rw [Graph.isTerminator, opcode, Graph.isTerminator]
  refine ⟨rewired.consistent, ⟨?_, ?_, ?_, ?_⟩, ?_, ?_, ?_, ?_, ?_⟩
  · rw [rewired.size]
    exact skel.framed.size
  · intro v old
    rw [rewired.kind?, skel.framed.kind? v old]
  · intro v old
    rw [rewired.ty?, skel.framed.ty? v old]
  · intro v old
    rw [rewired.operandsOf, if_neg, skel.framed.operandsOf v old, filter_eq_self]
    · intro slot held
      refine decide_eq_true fun isFunc => ?_
      subst isFunc
      exact absurd (valid.operand_lt held) (Nat.not_lt_of_le skel.laid.above)
    · rintro (rfl | member | member)
      · exact absurd old (Nat.not_lt_of_le skel.laid.above)
      · exact absurd old (Nat.not_lt_of_le ((skel.laid.blocks v).1 member).1)
      · obtain ⟨b, member, mem⟩ := mem_flatMap.1 member
        have above := ((skel.laid.blocks b).1 member).1
        exact absurd old (Nat.not_lt_of_le (skel.coded.listed b v above mem).1)
  · intro v k above hit
    rw [rewired.kind?] at hit
    rw [rewired.size]
    exact skel.within v k above hit
  · intro b i above mem
    rw [code, rewired.kind?, ← code] at mem
    exact extension.code b i above mem
  · intro i data above hit
    rw [rewired.kind?] at hit
    exact extension.homes i data above hit
  · intro user b above old isBlock' refers
    rw [isBlock] at isBlock' ⊢
    rw [isTerminator]
    exact extension.references user b above old isBlock' (held user b refers)
  · intro branch b above _ isBranch
    rw [opcode] at isBranch
    obtain ⟨data, hit, _⟩ := inst_of_opcode? isBranch
    obtain ⟨home, mem⟩ := skel.coded.homes branch data above hit
    obtain ⟨parent, isParent⟩ := block_of_mem_code mem
    have member : data.parent ∈ m.graph.layout fn :=
      (skel.laid.blocks _).2 ⟨home, by rw [Graph.isBlock, isParent]; rfl⟩
    rw [rewired.operandsOf, if_pos (.inr (.inr (mem_flatMap.2 ⟨_, member, mem⟩)))]
    simp

theorem DataAdded.createGlobal {t : Module} (more : base.DataAdded m.graph)
    (own : ∀ v ∈ initial, base.values.size ≤ v.index)
    (done : Builder.createGlobal n ty initial m = .ok (global, t)) :
    base.DataAdded t.graph ∧ t.graph.kind? global = some (.global n) ∧
      t.graph.ty? global = some (.pointer ty) ∧
      t = { m with graph := t.graph, globals := m.globals ++ [global] } := by
  have run := addValue_bind_ok.1 done
  have added := more.consistent.add_added (.global n) (.pointer ty) (some 1)
  have more' := more.added added rfl
  have k := (added.kind? _).trans (if_pos rfl)
  have isTy := (added.ty? _).trans (if_pos rfl)
  cases initial with
  | none =>
    have run := modify_bind_ok.1 run
    obtain ⟨rfl, rfl⟩ := pure_ok.1 run
    exact ⟨more', k, isTy, rfl⟩
  | some val =>
    obtain ⟨_, m1, adding, run⟩ := bind_ok.1 run
    obtain ⟨rewired, eq⟩ := addOperand_ok more'.consistent adding
    have run := modify_bind_ok.1 run
    obtain ⟨rfl, rfl⟩ := pure_ok.1 run
    have new : base.values.size ≤ (m.graph.add (.global n) (.pointer ty) (some 1)).1.index := by
      rw [added.fresh]
      exact more.framed.size
    refine ⟨more'.addOperand rewired new (own val rfl), (rewired.kind? _).trans k, (rewired.ty? _).trans isTy, ?_⟩
    rw [eq]

theorem Accrued.createGlobal {t : Module} (accrued : base.Accrued m.graph)
    (done : Builder.createGlobal n ty initial m = .ok (global, t)) : base.Accrued t.graph := by
  have run := addValue_bind_ok.1 done
  have added := accrued.add (.global n) (.pointer ty) (some 1)
  cases initial with
  | none =>
    have run := modify_bind_ok.1 run
    obtain ⟨rfl, rfl⟩ := pure_ok.1 run
    exact added
  | some val =>
    obtain ⟨_, m1, adding, run⟩ := bind_ok.1 run
    obtain ⟨slot, m2, stepped, last⟩ := bind_ok.1 adding
    obtain ⟨_, rfl⟩ := pure_ok.1 last
    obtain ⟨graph, linked, rfl⟩ := step_ok.1 stepped
    have run := modify_bind_ok.1 run
    obtain ⟨rfl, rfl⟩ := pure_ok.1 run
    exact added.addOperand linked

def Named (g : Graph) (name : String) (v : ValueId) : Prop :=
  g.kind? v = some (.global name) ∨ ∃ data, g.kind? v = some (.function data)

theorem Named.plain (named : g.Named n v) : g.Plain v := by
  rcases named with hit | ⟨args, hit⟩
  · exact plain_of_kind? hit rfl
  · exact plain_of_kind? hit rfl

theorem Framed.named (framed : base.Framed g) (named : base.Named n v) : g.Named n v := by
  rw [Named, framed.kind? v named.plain.inside]
  exact named

end Graph

namespace Lowering
variable {s t : Lowering}

structure Settled (s : Lowering) : Prop where
  consistent : s.module.graph.Consistent
  contained : s.module.graph.Contained
  named : ∀ binding ∈ s.module.symbols.outermost, s.module.graph.Named binding.1 binding.2
  flat : s.module.symbols.inner = []
  idle : s.module.current = none ∧ s.module.insertPoint = none
  outside : s.loops = []
  functions : ∀ func ∈ s.module.functions,
    s.module.graph.WellFormed func ∧ s.module.graph.Shaped func
  passable : ∀ func ∈ s.module.functions, s.module.graph.Passable func

theorem Settled.extended (settled : s.Settled) (extension : s.module.graph.Extends t.module.graph)
    (named : ∀ binding ∈ t.module.symbols.outermost,
      binding ∈ s.module.symbols.outermost ∨ t.module.graph.Named binding.1 binding.2)
    (flat : t.module.symbols.inner = []) (idle : t.module.current = none ∧ t.module.insertPoint = none)
    (outside : t.loops = []) (functions : ∀ fn ∈ t.module.functions, fn ∈ s.module.functions ∨
      t.module.graph.WellFormed fn ∧ t.module.graph.Shaped fn ∧ t.module.graph.Passable fn) :
    t.Settled where
  consistent := extension.consistent
  contained := settled.contained.extended extension
  named binding lt := by
    rcases named binding lt with old | new
    · exact extension.framed.named (settled.named binding old)
    · exact new
  flat := flat
  idle := idle
  outside := outside
  functions fn mem := by
    rcases functions fn mem with old | new
    · obtain ⟨wf, shaped⟩ := settled.functions fn old
      exact ⟨wf.extended extension, shaped.extended wf extension⟩
    · exact ⟨new.1, new.2.1⟩
  passable fn mem := by
    rcases functions fn mem with old | new
    · exact (settled.passable fn old).framed (settled.functions fn old).1 extension.framed
    · exact new.2.2

theorem Settled.reported (settled : s.Settled) (contexts : List Location) (report : Report) :
    Settled { s with module := { s.module with contexts, report } } :=
  ⟨settled.consistent, settled.contained, settled.named, settled.flat, settled.idle, settled.outside,
    settled.functions, settled.passable⟩

structure Continues (s after : Lowering) : Prop where
  settled : after.Settled
  framed : s.module.graph.Framed after.module.graph

end Lowering

namespace Lower
open Lowering
variable {s : Lowering} {fn : ValueId} {f : FuncDef}
variable {ctx : List Location} {module : Module} {t : Lowering} {res : Except LowerError Unit}
  {broken : Lowering → Prop} {d : Decl}

theorem opened_of_created (settled : s.Settled)
    (created : Builder.createFunction f.name f.ty (f.params.map (·.name)) { s.module with contexts := ctx } = .ok (fn, module)) :
    (∃ args, Opened s.module.graph (s.entering f.name fn module) fn f args) ∧ module =
      { s.module with contexts := ctx, graph := module.graph, functions := s.module.functions ++ [fn] } := by
  obtain ⟨args, added, same⟩ := createFunction_ok (m := { s.module with contexts := ctx }) settled.consistent created
  have symbols : module.symbols = s.module.symbols := by rw [same]
  have functions : module.functions = s.module.functions ++ [fn] := by rw [same]
  have idle : module.current = s.module.current := by rw [same]
  refine ⟨⟨args, settled.consistent, settled.contained, added, idle.trans settled.idle.1, ⟨?_, ?_⟩, ?_, ?_,
    settled.outside⟩, same⟩
  · intro sc member binding bound
    rcases mem_cons.1 member with rfl | member
    · cases bound
    · rw [show (module.symbols.insertGlobal f.name fn).inner = [] from symbols ▸ settled.flat] at member
      cases member
  · intro binding bound
    rcases mem_cons.1 bound with rfl | bound
    · exact plain_of_kind? added.kind? rfl
    · exact (added.framed.named (settled.named binding (symbols ▸ bound))).plain
  · show ([] :: module.symbols.inner).length = 1
    rw [symbols, settled.flat]
    rfl
  · intro callee mem
    rw [show (s.entering f.name fn module).module.functions = _ from functions] at mem
    rcases mem_append.1 mem with old | new
    · obtain ⟨data, hit⟩ := (settled.functions callee old).1.function
      exact plain_of_kind? ((added.framed.kind? _ (lt_of_kind? hit)).trans hit) rfl
    · rw [mem_singleton.1 new]
      exact plain_of_kind? added.kind? rfl

structure Left (s : Lowering) (func : ValueId) (name : String) (m : Module) : Prop where
  skeleton : ∃ entry, s.module.graph.Skeleton m.graph func entry
  functions : m.functions = s.module.functions ++ [func]
  globals : m.globals = s.module.globals
  outermost : m.symbols.outermost = (name, func) :: s.module.symbols.outermost
  flat : m.symbols.inner = []
  idle : m.current = none ∧ m.insertPoint = none

theorem left_of_intact {final : Lowering} (settled : s.Settled)
    (eq : module = { s.module with contexts := ctx, graph := module.graph, functions := s.module.functions ++ [fn] })
    (intact : (siteOf s.module.graph (s.entering f.name fn module) fn).Intact
      (s.entering f.name fn module).module.symbols.inner.length final.module) :
    Left s fn f.name final.left := by
  have symbols : module.symbols = s.module.symbols := by rw [eq]
  refine ⟨⟨_, intact.skeleton⟩, intact.functions.trans ?_, intact.globals.trans ?_, intact.outermost.trans ?_, ?_, rfl, rfl⟩
  · show module.functions = _
    rw [eq]
  · show module.globals = _
    rw [eq]
  · show (f.name, fn) :: module.symbols.outermost = _
    rw [symbols]
  · have length := intact.depth
    rw [show (s.entering f.name fn module).module.symbols.inner = [] :: module.symbols.inner from rfl, symbols,
      settled.flat] at length
    refine eq_nil_of_length_eq_zero ?_
    show final.module.symbols.inner.tail.length = 0
    rw [length_tail, length]
    rfl

theorem Left.kept {m : Module} {contexts : List Location} (left : Left s fn f.name m) (settled : s.Settled)
    (h : m.graph.WellFormed fn ∧ m.graph.Shaped fn ∧ m.graph.Passable fn) : s.Continues ⟨{ m with contexts }, []⟩ := by
  obtain ⟨entry, skel⟩ := left.skeleton
  refine ⟨settled.extended skel.extension ?_ left.flat left.idle rfl ?_, skel.framed⟩
  · intro binding lt
    rw [show _ = _ from left.outermost] at lt
    rcases mem_cons.1 lt with rfl | old
    · exact .inr (.inr skel.laid.function)
    · exact .inl old
  · intro other mem
    rw [show _ = _ from left.functions] at mem
    rcases mem_append.1 mem with old | new
    · exact .inl old
    · rw [mem_singleton.1 new]
      exact .inr h

theorem Left.dropped {m module : Module} {contexts : List Location} {result : Unit} (left : Left s fn f.name m)
    (settled : s.Settled) (done : Builder.removeFunction fn m = .ok (result, module)) :
    s.Continues ⟨{ module with contexts }, []⟩ := by
  obtain ⟨entry, skel⟩ := left.skeleton
  obtain ⟨data, isFn⟩ := skel.laid.function
  have gone := removeFunction_ok skel.consistent (lt_of_kind? isFn) done
  have extension := skel.removed settled.consistent gone
  have symbols := gone.symbols data isFn
  have idle := gone.idle left.idle.1
  refine ⟨settled.extended extension ?_ ?_ ⟨idle.1, idle.2.trans left.idle.2⟩ rfl ?_, extension.framed⟩
  · intro binding lt
    have mem : binding ∈ m.symbols.outermost := by
      rw [show _ = _ from symbols] at lt
      split at lt
      · exact (mem_filter.1 lt).1
      · exact lt
    rw [left.outermost] at mem
    rcases mem_cons.1 mem with rfl | old
    · exact .inr (.inr ⟨data, (gone.graph.kind? fn).trans isFn⟩)
    · exact .inl old
  · show module.symbols.inner = []
    rw [symbols]
    split
    · rw [ScopeTable.remove, left.flat]
      rfl
    · exact left.flat
  · intro other mem
    rw [show _ = _ from gone.functions, left.functions] at mem
    obtain ⟨mem, notFunc⟩ := mem_filter.1 mem
    rcases mem_append.1 mem with old | new
    · exact .inl old
    · exact absurd (mem_singleton.1 new) (of_decide_eq_true notFunc)

theorem function_continues (settled : s.Settled) (run : FunctionRun f s res t) : s.Continues t := by
  cases run with
  | redefined => exact ⟨settled.reported _ _, .refl _⟩
  | kept _ created lowered =>
    obtain ⟨⟨args, ho⟩, eq⟩ := opened_of_created settled created
    obtain ⟨intact, h⟩ := functionBody_ends ho _ _ lowered
    exact (left_of_intact settled eq intact).kept settled h
  | dropped _ created lowered gone =>
    obtain ⟨⟨args, ho⟩, eq⟩ := opened_of_created settled created
    exact (left_of_intact settled eq (functionBody_ends ho _ _ lowered)).dropped settled gone

structure Stored (s after : Lowering) (value : Option ValueId) : Prop where
  data : s.module.graph.DataAdded after.module.graph
  accrued : s.module.graph.Accrued after.module.graph
  absent : value = none → after = s
  own : ∀ v ∈ value, s.module.graph.values.size ≤ v.index
  same : after = { s with module.graph := after.module.graph }

theorem Stored.nothing (ok : s.module.graph.Consistent) : Stored s s none :=
  ⟨.refl ok, .refl _, fun _ => rfl, (fun _ mem => by cases mem), rfl⟩

private theorem addValue_stored {k : Kind} {ty : Ty} {lim : Option Nat} (ok : s.module.graph.Consistent)
    (free : k.values = []) : Ends (some <$> build (Builder.addValue k ty lim)) s broken fun val t =>
      Stored s t val := by
  refine .map (.build fun v module done => ?_)
  obtain ⟨rfl, rfl⟩ := addValue_ok.1 done
  have added := ok.add_added k ty lim
  refine ⟨(Graph.DataAdded.refl ok).added added free, (Graph.Accrued.refl _).add k ty lim, nofun, ?_, rfl⟩
  rintro _ ⟨⟩
  exact Nat.le_of_eq (by rw [added.fresh])

private theorem initialValue_stored {e : Expr} (ok : s.module.graph.Consistent) :
    Ends (initialValue e) s broken fun val t => Stored s t val := by
  have folded : Ends (foldedValue e) s broken fun val t => Stored s t val := by
    unfold foldedValue
    split
    next => exact addValue_stored ok rfl
    next => exact .pure (.nothing ok)
  unfold initialValue
  split
  next => exact addValue_stored ok rfl
  next => exact folded

inductive GlobalRun (d : Decl) (s : Lowering) : Except LowerError Unit → Lowering → Prop
  | failed {e : LowerError} {report : Report} : GlobalRun d s (.error e) { s with module.report := report }
  | made {graph : Graph} {global : ValueId} (data : s.module.graph.DataAdded graph)
      (accrued : s.module.graph.Accrued graph) (kind : graph.kind? global = some (.global d.name))
      (ty : graph.ty? global = some (.pointer d.ty.unqualified)) :
      GlobalRun d s (.ok ()) { s with module := { s.module with
        graph, globals := s.module.globals ++ [global], symbols := s.module.symbols.insertGlobal d.name global } }

private theorem createGlobal_made {initial : Option ValueId} (stored : Stored s t initial) : Ends (do
      let global ← build (Builder.createGlobal d.name d.ty.unqualified initial)
      build (Builder.declareGlobal d.name global)) t broken fun _ last => GlobalRun d s (.ok ()) last := by
  have created : Ends (build (Builder.createGlobal d.name d.ty.unqualified initial)) t broken
      fun global last => s.module.graph.DataAdded last.module.graph ∧ s.module.graph.Accrued last.module.graph ∧
        last.module.graph.kind? global = some (.global d.name) ∧
        last.module.graph.ty? global = some (.pointer d.ty.unqualified) ∧ last = { s with module :=
          { s.module with graph := last.module.graph, globals := s.module.globals ++ [global] } } := by
    refine .build fun global module done => ?_
    obtain ⟨more, k, isTy, eq⟩ := stored.data.createGlobal stored.own done
    refine ⟨more, stored.accrued.createGlobal done, k, isTy, ?_⟩
    rw [eq, stored.same]
  refine created.bind ?_
  intro global s1 ⟨more, accrued, k, isTy, eq⟩
  refine .build fun _ module done => ?_
  obtain rfl := modify_ok.1 done
  rw [eq]
  exact .made more accrued k isTy

theorem GlobalRun.left {loc : Location}
    (run : GlobalRun d { s with module.contexts := loc :: s.module.contexts } res t) :
    GlobalRun d s res { t with module.contexts := t.module.contexts.tail } := by
  cases run with
  | failed => exact .failed
  | made data acc k isTy => exact .made data acc k isTy

private theorem initialized_ends {d : Decl} (valid : s.module.graph.Consistent) : Ends (defineGlobal d) s
      (fun t => ∀ e, GlobalRun d s (.error e) t) fun _ t => GlobalRun d s (.ok ()) t := by
  unfold defineGlobal
  cases d.initializer with
  | none => exact createGlobal_made (.nothing valid)
  | some e =>
    refine (initialValue_stored valid).bind ?_
    intro initial s1 stored
    cases initial with
    | some val => exact createGlobal_made stored
    | none =>
      have failed : Ends (fail (.nonConstantInitializer d.name e.location) : Lower (Option ValueId)) s1
          (fun t => ∀ e, GlobalRun d s (.error e) t) fun _ _ => False := by
        rw [stored.absent rfl]
        exact .fail fun report e => .failed
      exact failed.bind fun _ _ never => never.elim

theorem global_run (valid : s.module.graph.Consistent) (ran : (global d).run s = .ok (res, t)) :
    GlobalRun d s res t := by
  unfold global withContext at ran
  obtain ⟨mid, ent, eq⟩ := between_run ran
  subst eq
  have path := @initialized_ends { s with module.contexts := d.location :: s.module.contexts } d valid res mid ent
  cases res with
  | ok val => exact path.left
  | error e => exact (path e).left

theorem global_continues (settled : s.Settled) (run : GlobalRun d s res t) : s.Continues t := by
  cases run with
  | failed => exact ⟨settled.reported _ _, .refl _⟩
  | made data _ k =>
    refine ⟨settled.extended data.extension ?_ settled.flat settled.idle settled.outside fun _ old => .inl old,
      data.framed⟩
    intro binding lt
    rcases mem_cons.1 lt with rfl | old
    · exact .inr (.inl k)
    · exact .inl old

theorem item_continues {i : Item} (settled : s.Settled) (ran : (item i).run s = .ok (res, t)) :
    s.Continues t := by
  cases i with
  | func f => exact function_continues settled (function_run ran)
  | global d => exact global_continues settled (global_run settled.consistent ran)

end Lower

namespace Lowering
variable {s t : Lowering}

theorem Settled.item (settled : s.Settled) {i : Item} (done : s.item i = .ok t) : s.Continues t := by
  obtain ⟨⟨res, final⟩, ran, rfl⟩ := map_eq_ok.1 done
  exact Lower.item_continues settled ran

theorem Settled.program (settled : s.Settled) {p : Program} (done : s.program p = .ok t) : s.Continues t := by
  obtain ⟨items⟩ := p
  induction items generalizing s with
  | nil =>
    cases done
    exact ⟨settled, .refl _⟩
  | cons i tl ih =>
    obtain ⟨mid, first, next⟩ := bind_eq_ok.1 done
    have continues := settled.item first
    have final := ih continues.settled next
    exact ⟨final.settled, continues.framed.trans final.framed⟩

theorem settled_start (n : String) : (start n).Settled where
  consistent := .empty
  contained _ _ hit := by cases hit
  named _ bound := by cases bound
  flat := rfl
  idle := ⟨rfl, rfl⟩
  outside := rfl
  functions _ mem := by cases mem
  passable _ mem := by cases mem

end Lowering

/-- Every function that is left in the module after lowering has its shape, whatever mistakes
other items have. -/
theorem lowered_functions_shaped {p : Program} {name : String} {after : Lowering}
    (done : (Lowering.start name).program p = .ok after) :
    ∀ func ∈ after.module.functions, after.module.graph.Shaped func :=
  fun func listed => (((Lowering.settled_start name).program done).settled.functions func listed).2

def mistakeThenLoop : Program where
  items := [
    .func { name := "f", returnType := .void, params := [], body := .breakLoop .unknown },
    .func
      { name := "f"
        returnType := .int32
        params := [{ name := "n", ty := .int32 }]
        body := .whileDo (.ofName "n" .int32) (.ret (some (.ofInt 1)) .unknown) .unknown }]

theorem lowered_functions_shaped_beside_mistake : ∃ after,
    (Lowering.start "unit").program mistakeThenLoop = .ok after ∧ after.module.report.errorCount = 1 ∧
      after.module.functions.length = 1 ∧ ∀ func ∈ after.module.functions, after.module.graph.Shaped func := by
  have counts : ((Lowering.start "unit").program mistakeThenLoop).toOption.map
      (fun after => (after.module.report.errorCount, after.module.functions.length)) = some (1, 1) := by
    decide +kernel
  cases done : (Lowering.start "unit").program mistakeThenLoop with
  | error fault =>
    rw [done] at counts
    cases counts
  | ok after =>
    rw [done] at counts
    obtain ⟨mistakes, left⟩ := Prod.mk.inj (Option.some.inj counts)
    exact ⟨after, rfl, mistakes, left, lowered_functions_shaped done⟩

end Midend
