import Midend.Module.Build
import Midend.Proofs.Graph.Grow

/-! What the builder does to a module, step by step: building blocks of a successful run are
taken apart, and putting in an instruction is one equation for the graph. -/
namespace Midend.Builder
open Graph
variable {α β : Type} {m t : Module}
variable {action : Builder α} {res : α} {f : Fault} {user i : ValueId} {op : Opcode} {pt : InsertPoint}

theorem bind_ok {next : α → Builder β} {res : β} : (action >>= next) m = .ok (res, t) ↔
      ∃ val mid, action m = .ok (val, mid) ∧ next val mid = .ok (res, t) := by
  show (action m >>= fun pair => next pair.1 pair.2) = _ ↔ _
  rw [bind_eq_ok]
  exact ⟨fun ⟨pair, left, right⟩ => ⟨pair.1, pair.2, left, right⟩,
    fun ⟨val, mid, left, right⟩ => ⟨(val, mid), left, right⟩⟩

theorem pure_ok {val : α} : (pure val : Builder α) m = .ok (res, t) ↔ val = res ∧ m = t := by
  show (Except.ok (val, m) : Except Fault (α × Module)) = _ ↔ _
  simp

theorem map_ok {f : α → β} {res : β} :
    (f <$> action) m = .ok (res, t) ↔ ∃ val, action m = .ok (val, t) ∧ f val = res := by
  show (action >>= fun val => pure (f val)) m = _ ↔ _
  rw [bind_ok]
  constructor
  · rintro ⟨val, mid, left, right⟩
    obtain ⟨eq, rfl⟩ := pure_ok.1 right
    exact ⟨val, left, eq⟩
  · rintro ⟨val, left, eq⟩
    exact ⟨val, t, left, pure_ok.2 ⟨eq, rfl⟩⟩

private theorem get_ok {res : Module} : (get : Builder Module) m = .ok (res, t) ↔ m = res ∧ m = t := by
  show (Except.ok (m, m) : Except Fault (Module × Module)) = _ ↔ _
  simp

theorem modify_ok {f : Module → Module} {res : PUnit} :
    (modify f : Builder PUnit) m = .ok (res, t) ↔ t = f m := by
  show (Except.ok (PUnit.unit, f m) : Except Fault (PUnit × Module)) = _ ↔ _
  simp [eq_comm]

theorem fault_ok : ¬ (fault f : Builder α) m = .ok (res, t) := by
  intro done
  cases done

theorem lift_ok {x : Except Fault α} :
    (StateT.lift x : Builder α) m = .ok (res, t) ↔ x = .ok res ∧ m = t := by
  show (x >>= fun val => pure (val, m)) = _ ↔ _
  rw [bind_eq_ok]
  constructor
  · rintro ⟨val, hit, done⟩
    cases done
    exact ⟨hit, rfl⟩
  · rintro ⟨hit, rfl⟩
    exact ⟨res, hit, rfl⟩

theorem ensure_ok {cond : Bool} {res : Unit} :
    ensure cond f m = .ok (res, t) ↔ cond = true ∧ m = t := by
  unfold ensure
  split
  next h =>
    rw [pure_ok]
    exact ⟨fun ⟨_, eq⟩ => ⟨h, eq⟩, fun ⟨_, eq⟩ => ⟨rfl, eq⟩⟩
  next fails => exact ⟨fun done => absurd done fault_ok, fun ⟨h, _⟩ => absurd h fails⟩

theorem ask_ok {read : Graph → Except Fault α} :
    ask read m = .ok (res, t) ↔ read m.graph = .ok res ∧ m = t := by
  unfold ask
  rw [bind_ok]
  constructor
  · rintro ⟨val, mid, first, done⟩
    obtain ⟨rfl, rfl⟩ := get_ok.1 first
    exact lift_ok.1 done
  · rintro ⟨hit, rfl⟩
    exact ⟨m, m, rfl, lift_ok.2 ⟨hit, rfl⟩⟩

theorem step_ok {f : Graph → Except Fault (α × Graph)} : step f m = .ok (res, t) ↔
      ∃ graph, f m.graph = .ok (res, graph) ∧ t = { m with graph } := by
  unfold step
  rw [bind_ok]
  constructor
  · rintro ⟨val, mid, first, done⟩
    obtain ⟨rfl, rfl⟩ := get_ok.1 first
    obtain ⟨pair, mid, upd, done⟩ := bind_ok.1 done
    obtain ⟨hit, rfl⟩ := lift_ok.1 upd
    cases done
    exact ⟨pair.2, hit, rfl⟩
  · rintro ⟨graph, hit, rfl⟩
    exact ⟨m, m, rfl, bind_ok.2 ⟨(res, graph), m, lift_ok.2 ⟨hit, rfl⟩, rfl⟩⟩

theorem change_ok {f : Graph → Except Fault Graph} {res : Unit} :
    change f m = .ok (res, t) ↔ ∃ graph, f m.graph = .ok graph ∧ t = { m with graph } := by
  unfold change
  rw [bind_ok]
  constructor
  · rintro ⟨val, mid, first, done⟩
    obtain ⟨rfl, rfl⟩ := get_ok.1 first
    obtain ⟨graph, mid, upd, done⟩ := bind_ok.1 done
    obtain ⟨hit, rfl⟩ := lift_ok.1 upd
    cases done
    exact ⟨graph, hit, rfl⟩
  · rintro ⟨graph, hit, rfl⟩
    exact ⟨m, m, rfl, bind_ok.2 ⟨graph, m, lift_ok.2 ⟨hit, rfl⟩, rfl⟩⟩

section Binds
variable {res : β}
variable {next : Unit → Builder β} {k : Kind} {lim : Option Nat} {ty : Ty}

theorem get_bind_ok {next : Module → Builder β} :
    (get >>= next) m = .ok (res, t) ↔ next m m = .ok (res, t) := Iff.rfl

theorem modify_bind_ok {f : Module → Module} {next : PUnit → Builder β} :
    (modify f >>= next) m = .ok (res, t) ↔ next ⟨⟩ (f m) = .ok (res, t) := Iff.rfl

theorem ask_bind_ok {read : Graph → Except Fault α} {next : α → Builder β} :
    (ask read >>= next) m = .ok (res, t) ↔
      ∃ val, read m.graph = .ok val ∧ next val m = .ok (res, t) := by
  rw [bind_ok]
  constructor
  · rintro ⟨val, mid, asked, done⟩
    obtain ⟨hit, rfl⟩ := ask_ok.1 asked
    exact ⟨val, hit, done⟩
  · rintro ⟨val, hit, done⟩
    exact ⟨val, m, ask_ok.2 ⟨hit, rfl⟩, done⟩

theorem ensure_bind_ok {cond : Bool} : (ensure cond f >>= next) m = .ok (res, t) ↔
      cond = true ∧ next () m = .ok (res, t) := by
  rw [bind_ok]
  constructor
  · rintro ⟨_, mid, ensured, done⟩
    obtain ⟨h, rfl⟩ := ensure_ok.1 ensured
    exact ⟨h, done⟩
  · rintro ⟨h, done⟩
    exact ⟨(), m, ensure_ok.2 ⟨h, rfl⟩, done⟩

theorem change_bind_ok {f : Graph → Except Fault Graph} : (change f >>= next) m = .ok (res, t) ↔
      ∃ graph, f m.graph = .ok graph ∧ next () { m with graph } = .ok (res, t) := by
  rw [bind_ok]
  constructor
  · rintro ⟨_, mid, upd, done⟩
    obtain ⟨graph, hit, rfl⟩ := change_ok.1 upd
    exact ⟨graph, hit, done⟩
  · rintro ⟨graph, hit, done⟩
    exact ⟨(), _, change_ok.2 ⟨graph, hit, rfl⟩, done⟩

theorem addValue_ok {v : ValueId} : addValue k ty lim m = .ok (v, t) ↔
      v = (m.graph.add k ty lim).1 ∧ t = { m with graph := (m.graph.add k ty lim).2 } := by
  unfold addValue
  rw [step_ok]
  constructor
  · rintro ⟨graph, hit, rfl⟩
    cases hit
    exact ⟨rfl, rfl⟩
  · rintro ⟨rfl, rfl⟩
    exact ⟨_, rfl, rfl⟩

theorem addValue_bind_ok {next : ValueId → Builder β} : (addValue k ty lim >>= next) m = .ok (res, t) ↔
      next (m.graph.add k ty lim).1 { m with graph := (m.graph.add k ty lim).2 } = .ok (res, t) := by
  rw [bind_ok]
  constructor
  · rintro ⟨v, mid, added, done⟩
    obtain ⟨rfl, rfl⟩ := addValue_ok.1 added
    exact done
  · intro done
    exact ⟨_, _, addValue_ok.2 ⟨rfl, rfl⟩, done⟩

end Binds

theorem addOperand_ok {dest : ValueId} {res : Unit} (valid : m.graph.Consistent)
    (done : addOperand user dest m = .ok (res, t)) :
    m.graph.Rewired t.graph (fun v old => if v = user then old ++ [some dest] else old) ∧
      t = { m with graph := t.graph } := by
  obtain ⟨slot, mid, stepped, done⟩ := bind_ok.1 done
  obtain ⟨_, rfl⟩ := pure_ok.1 done
  obtain ⟨graph, add, rfl⟩ := step_ok.1 stepped
  exact ⟨addOperand_rewired valid add, rfl⟩

theorem forM_addOperand_ok {dests : List ValueId} {res : PUnit} (valid : m.graph.Consistent)
    (done : dests.forM (addOperand user) m = .ok (res, t)) :
    m.graph.Rewired t.graph (fun v old => if v = user then old ++ dests.map some else old) ∧
      t = { m with graph := t.graph } := by
  induction dests generalizing m with
  | nil =>
    obtain ⟨_, rfl⟩ := pure_ok.1 done
    exact ⟨.unchanged valid fun _ => by simp, rfl⟩
  | cons dest tl ih =>
    obtain ⟨_, mid, first, next⟩ := bind_ok.1
      (show (addOperand user dest >>= fun _ => tl.forM (addOperand user)) m = _ from done)
    obtain ⟨left, eq⟩ := addOperand_ok valid first
    obtain ⟨right, same'⟩ := ih left.consistent next
    refine ⟨(left.trans right).congr ?_, ?_⟩
    · intro v
      by_cases isUser : v = user
      · simp [isUser]
      · simp [isUser]
    · rw [same', eq]

private theorem checkPoint_ok {res : Unit} (done : checkPoint pt op m = .ok (res, t)) :
    m = t ∧ ∀ d, m.graph.kind? pt.block = some (.block d) →
      ∀ last, m.graph.lastOf pt.block = some last → op.isTerminator = false ∧ pt.index < d.insts.length := by
  obtain ⟨hit, read, next⟩ := ask_bind_ok.1 done
  cases hit with
  | none =>
    obtain ⟨_, rfl⟩ := pure_ok.1 next
    refine ⟨rfl, ?_⟩
    intro d hb last ends
    rw [Graph.Consistent.terminator? hb, ends] at read
    cases read
  | some last =>
    obtain ⟨notTerminator, next⟩ := ensure_bind_ok.1 (get_bind_ok.1 next)
    obtain ⟨d, hb, next⟩ := ask_bind_ok.1 next
    obtain ⟨pre, rfl⟩ := ensure_ok.1 next
    refine ⟨rfl, ?_⟩
    intro other hit _ _
    rw [block_eq_ok, hit] at hb
    cases hb
    exact ⟨by simpa using notTerminator, by simpa using pre⟩

private theorem spliceInst_ok {res : Unit} (valid : m.graph.Consistent)
    (done : spliceInst pt i m = .ok (res, t)) :
    ∃ d, m.graph.kind? pt.block = some (.block d) ∧ pt.index ≤ d.insts.length ∧
      m.graph.Rekinded t.graph pt.block (.block { d with insts := d.insts.insertIdx pt.index i }) ∧
      t = { m with graph := t.graph } := by
  obtain ⟨graph, upd, rfl⟩ := change_ok.1 done
  obtain ⟨k, read, upd⟩ := bind_eq_ok.1 upd
  cases k with
  | block d =>
    simp only at upd
    split at upd
    next lt =>
      exact ⟨d, kind_eq_ok.1 read, lt, setKind_rekinded valid upd, rfl⟩
    next => cases upd
  | _ => cases upd

structure Inserted (m after : Module) (inst : ValueId) (op : Opcode) (ty : Ty)
    (operands : List ValueId) (attr : Attr) (point : InsertPoint) (data : Block) : Prop where
  here : m.insertPoint = some point
  block : m.graph.kind? point.block = some (.block data)
  bound : point.index ≤ data.insts.length
  allowed : ∀ last, m.graph.lastOf point.block = some last →
    op.isTerminator = false ∧ point.index < data.insts.length
  fresh : inst = ⟨m.graph.values.size⟩
  consistent : after.graph.Consistent
  size : after.graph.values.size = m.graph.values.size + 1
  kind? : ∀ v, after.graph.kind? v =
    if v = inst then some (.inst ⟨op, point.block, attr⟩)
    else if v = point.block then
      some (.block { data with insts := data.insts.insertIdx point.index inst })
    else m.graph.kind? v
  ty? : ∀ v, after.graph.ty? v = if v = inst then some ty else m.graph.ty? v
  limit? : ∀ v, v ≠ inst → after.graph.limit? v = m.graph.limit? v
  operandsOf : ∀ v, after.graph.operandsOf v =
    if v = inst then operands.map some else m.graph.operandsOf v
  module : after = { m with
    graph := after.graph
    insertPoint := some { point with index := point.index + 1 } }

/-- What inserting an instruction does. -/
theorem insertInst_ok {ty : Ty} {ops : List ValueId} {attr : Attr} (valid : m.graph.Consistent)
    (done : insertInst op ty ops attr m = .ok (i, t)) :
    ∃ pt d, Inserted m t i op ty ops attr pt d := by
  have run := get_bind_ok.1 done
  cases here : m.insertPoint with
  | none =>
    rw [here] at run
    exact absurd run fault_ok
  | some pt =>
    rw [here] at run
    obtain ⟨_, mid, checked, adding⟩ := bind_ok.1 run
    obtain ⟨rfl, allowed⟩ := checkPoint_ok checked
    have grown := valid.add_added (.inst ⟨op, pt.block, attr⟩) ty
      (op.arity.map fun arity => max arity ops.length)
    have placing := addValue_bind_ok.1 adding
    obtain ⟨g1, placed, giving⟩ := change_bind_ok.1 (get_bind_ok.1 placing)
    have moved := relocate_rewired grown.consistent placed
    obtain ⟨_, m2, given, putting⟩ := bind_ok.1 giving
    obtain ⟨linked, eq⟩ := forM_addOperand_ok moved.consistent given
    obtain ⟨_, m3, splicing, advancing⟩ := bind_ok.1 putting
    obtain ⟨d, hb, lt, spliced, same'⟩ := spliceInst_ok linked.consistent splicing
    have advanced := modify_bind_ok.1 advancing
    obtain ⟨rfl, rfl⟩ := pure_ok.1 advanced
    have older : m.graph.kind? pt.block = some (.block d) := by
      rw [linked.kind?, moved.kind?, grown.kind?] at hb
      split at hb
      · cases hb
      · exact hb
    refine ⟨pt, d, here, older, lt, allowed d older, grown.fresh, spliced.consistent, ?_, ?_, ?_, ?_, ?_, ?_⟩
    · rw [spliced.size, linked.size, moved.size, grown.size]
    · intro v
      have ne : (m.graph.add (.inst ⟨op, pt.block, attr⟩) ty
          (op.arity.map fun arity => max arity ops.length)).1 ≠ pt.block := by
        rw [grown.fresh]
        intro eq
        have into := lt_of_kind? older
        rw [← eq] at into
        exact Nat.lt_irrefl _ into
      rw [spliced.kind? v, linked.kind? v, moved.kind? v, grown.kind? v]
      by_cases isNew : v = (m.graph.add (.inst ⟨op, pt.block, attr⟩) ty
          (op.arity.map fun arity => max arity ops.length)).1
      · rw [if_pos isNew, if_pos isNew, if_neg (isNew ▸ ne)]
      · rw [if_neg isNew, if_neg isNew]
    · intro v
      rw [spliced.ty? v, linked.ty? v, moved.ty? v, grown.ty? v]
    · intro v older
      rw [spliced.limit? v, linked.limit? v, moved.limit? v, grown.limit? v older]
    · intro v
      rw [spliced.operandsOf v, linked.operandsOf v, moved.operandsOf v, grown.operandsOf v]
      split
      next isNew =>
        have empty : m.graph.operandsOf ⟨m.graph.values.size⟩ = [] :=
          operandsOf_nil_of_ge (Nat.le_refl _)
        rw [isNew, grown.fresh, empty]
        rfl
      next => rfl
    · rw [same', eq]

end Midend.Builder
