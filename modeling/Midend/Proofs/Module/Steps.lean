import Midend.Proofs.Module.Insert

/-! The steps of the builder beyond putting in an instruction: stack slots, blocks and the
terminators that lead to them. -/
namespace Midend.Builder
open List Graph
variable {α : Type} {m t : Module}
variable {pt : InsertPoint} {b dest i : ValueId} {res : Unit} {n : Option String}

theorem withInsertPoint_ok {action : Builder α} {res : α} : withInsertPoint pt action m = .ok (res, t) ↔
      ∃ mid, action { m with insertPoint := some pt } = .ok (res, mid) ∧
        t = { mid with insertPoint := m.insertPoint } := by
  constructor
  · intro done
    have run := modify_bind_ok.1 (get_bind_ok.1 done)
    obtain ⟨val, mid, acted, returning⟩ := bind_ok.1 run
    have returned := modify_bind_ok.1 returning
    obtain ⟨rfl, eq⟩ := pure_ok.1 returned
    exact ⟨mid, acted, eq.symm⟩
  · rintro ⟨mid, acted, rfl⟩
    exact get_bind_ok.2 (modify_bind_ok.2 (bind_ok.2 ⟨res, mid, acted, rfl⟩))

def slotPosition (g : Graph) (entry : ValueId) : Nat :=
  if (g.lastOf entry).isSome then (g.code entry).length - 1 else (g.code entry).length

structure Allocated (m after : Module) (slot : ValueId) (ty : Ty) (name : Option String)
    (entry : ValueId) (data : Block) : Prop where
  notVoid : ty.isVoid = false
  inserted : Inserted { m with insertPoint := some ⟨entry, slotPosition m.graph entry⟩ }
    { after with insertPoint := some ⟨entry, slotPosition m.graph entry + 1⟩ } slot .alloca
    (.pointer ty.unqualified) [] (.alloca name) ⟨entry, slotPosition m.graph entry⟩ data
  moved : after.insertPoint = m.insertPoint.map fun point =>
    if point.block = entry ∧ slotPosition m.graph entry ≤ point.index then { point with index := point.index + 1 }
    else point

private theorem movePast_ok {pos : Nat} (done : movePast b pos m = .ok (res, t)) :
    t = { m with insertPoint := m.insertPoint.map fun pt =>
      if pt.block = b ∧ pos ≤ pt.index then { pt with index := pt.index + 1 } else pt } := by
  have run := get_bind_ok.1 done
  cases here : m.insertPoint with
  | none =>
    rw [here] at run
    obtain ⟨_, rfl⟩ := pure_ok.1 run
    rw [Option.map_none, ← here]
  | some old =>
    rw [here] at run
    dsimp only at run
    rw [Option.map_some]
    split at run
    next into =>
      obtain ⟨moved, mid, lifted, moving⟩ := bind_ok.1 run
      obtain ⟨next, rfl⟩ := lift_ok.1 lifted
      obtain rfl := modify_ok.1 moving
      unfold InsertPoint.next at next
      split at next
      · cases next
        rw [if_pos into]
      · cases next
    next outside =>
      obtain ⟨_, rfl⟩ := pure_ok.1 run
      rw [if_neg outside, ← here]

/-- What reserving a slot does. -/
theorem alloca_ok {ty : Ty} {slot : ValueId} (valid : m.graph.Consistent)
    (done : alloca ty n m = .ok (slot, t)) :
    ∃ st d, m.current = some st ∧ Allocated m t slot ty n st.entry d := by
  obtain ⟨notVoid, run⟩ := ensure_bind_ok.1 done
  have run := get_bind_ok.1 run
  cases building : m.current with
  | none =>
    rw [building] at run
    exact absurd run fault_ok
  | some st =>
    rw [building] at run
    obtain ⟨last, terminated, run⟩ := ask_bind_ok.1 run
    obtain ⟨b, hb, run⟩ := ask_bind_ok.1 run
    have hit := block_eq_ok.1 hb
    rw [Graph.Consistent.terminator? hit] at terminated
    cases terminated
    have pos : (if (m.graph.lastOf st.entry).isSome then b.insts.length - 1
        else b.insts.length) = slotPosition m.graph st.entry := by
      rw [slotPosition, code_of_kind? hit]
    rw [pos] at run
    obtain ⟨made, mid, inserting, run⟩ := bind_ok.1 run
    obtain ⟨m1, inserted, rfl⟩ := withInsertPoint_ok.1 inserting
    obtain ⟨pt, d, put⟩ := insertInst_ok (by exact valid) inserted
    obtain rfl : ⟨st.entry, slotPosition m.graph st.entry⟩ = pt := Option.some.inj put.here
    obtain ⟨_, m2, moving, returning⟩ := bind_ok.1 run
    obtain ⟨rfl, rfl⟩ := pure_ok.1 returning
    have eq := movePast_ok moving
    have back : { m2 with insertPoint := some ⟨st.entry, slotPosition m.graph st.entry + 1⟩ } = m1 := by
      have pt : m1.insertPoint = some ⟨st.entry, slotPosition m.graph st.entry + 1⟩ := by
        rw [put.module]
      rw [eq, ← pt]
    refine ⟨st, d, rfl, by simpa using notVoid, ?_, ?_⟩
    · rw [back]
      exact put
    · rw [eq]

structure BlockAdded (g after : Graph) (block func : ValueId) (name : Option String) : Prop where
  fresh : block = ⟨g.values.size⟩
  consistent : after.Consistent
  size : after.values.size = g.values.size + 1
  kind? : ∀ v, after.kind? v =
    if v = block then some (.block ⟨name, [], [], [], func⟩) else g.kind? v
  ty? : ∀ v, after.ty? v = if v = block then some .label else g.ty? v
  limit? : ∀ v, after.limit? v = if v = block then some none else g.limit? v
  operandsOf : ∀ v, after.operandsOf v =
    if v = func then g.operandsOf v ++ [some block] else g.operandsOf v

/-- What creating a block does. -/
theorem createBlock_ok {f : ValueId} (valid : m.graph.Consistent)
    (done : createBlock f n m = .ok (b, t)) :
    BlockAdded m.graph t.graph b f n ∧ ∃ current, t = { m with graph := t.graph, current } ∧
        (∀ st, m.current = some st → st.function = f → current = some st) ∧
        ((∀ st, m.current = some st → st.function ≠ f) → current =
          some { function := f, entry := ((t.graph.operandsOf f)[0]?.join).getD b }) := by
  have added := valid.add_added (.block ⟨n, [], [], [], f⟩) .label none
  have run := addValue_bind_ok.1 done
  obtain ⟨_, mid, linking, run⟩ := bind_ok.1 run
  obtain ⟨linked, eq⟩ := addOperand_ok added.consistent linking
  obtain ⟨_, last, turning, returning⟩ := bind_ok.1 run
  obtain ⟨rfl, rfl⟩ := pure_ok.1 returning
  have turned := get_bind_ok.1 turning
  have grown : BlockAdded m.graph mid.graph
      (m.graph.add (.block ⟨n, [], [], [], f⟩) .label none).1 f n := by
    refine ⟨added.fresh, linked.consistent, linked.size.trans added.size, ?_, ?_, ?_, ?_⟩
    · intro v
      rw [linked.kind? v, added.kind? v]
    · intro v
      rw [linked.ty? v, added.ty? v]
    · intro v
      rw [linked.limit? v, limit?_add]
    · intro v
      rw [linked.operandsOf v, added.operandsOf v]
  have current : mid.current = m.current := by rw [eq]
  split at turned
  next old =>
    obtain ⟨_, rfl⟩ := pure_ok.1 turned
    refine ⟨grown, m.current, eq, fun _ hit _ => hit, ?_⟩
    intro missing
    rw [current, Option.any_eq_true] at old
    obtain ⟨st, hit, eq⟩ := old
    exact absurd (of_decide_eq_true eq) (missing st hit)
  next other =>
    obtain ⟨entry, asked, changing⟩ := ask_bind_ok.1 turned
    obtain rfl := modify_ok.1 changing
    refine ⟨grown, _, by rw [eq], ?_, ?_⟩
    · intro st hit isFunc
      rw [current, hit] at other
      simp [isFunc] at other
    · intro _
      have into : f.index < mid.graph.values.size := by
        have mem : some (m.graph.add (.block ⟨n, [], [], [], f⟩) .label none).1 ∈
            mid.graph.operandsOf f := by
          rw [grown.operandsOf f, if_pos rfl]
          exact mem_append_right _ (mem_singleton.2 rfl)
        exact lt_of_mem_operandsOf mem
      rw [Graph.entryBlock, grown.consistent.operand into] at asked
      cases asked
      rfl

theorem setInsertPoint_ok (done : setInsertPoint b m = .ok (res, t)) :
    (∃ d, m.graph.kind? b = some (.block d)) ∧
      t = { m with insertPoint := some ⟨b, (m.graph.code b).length⟩ } := by
  obtain ⟨d, hb, run⟩ := ask_bind_ok.1 done
  have hit := block_eq_ok.1 hb
  obtain ⟨k, _, run⟩ := ask_bind_ok.1 run
  obtain ⟨_, run⟩ := ensure_bind_ok.1 run
  refine ⟨⟨d, hit⟩, ?_⟩
  rw [code_of_kind? hit]
  exact modify_ok.1 run

structure Closed (m after : Module) (inst : ValueId) (op : Opcode) (operands targets : List ValueId)
    (point : InsertPoint) (data : Block) : Prop where
  inserted : ∃ middle, Inserted m middle inst op .void operands .none point data ∧
    middle.graph.Rewired after.graph (fun v old =>
      old ++ (targets.filter (· = v)).map fun _ => some point.block) ∧
    after = { middle with graph := after.graph }

theorem append_edges {dests : List ValueId} {v : ValueId} (outside : v ∉ dests)
    (source : ValueId) (old : List (Option ValueId)) :
    old ++ ((dests.filter (· = v)).map fun _ => some source) = old := by
  have none : dests.filter (· = v) = [] := by
    rw [filter_eq_nil_iff]
    intro dest mem
    simp only [decide_eq_true_eq]
    rintro rfl
    exact outside mem
  rw [none, map_nil, append_nil]

theorem addEdge_ok (valid : m.graph.Consistent) (here : m.insertPoint = some pt)
    (done : addEdge dest m = .ok (res, t)) : m.graph.Rewired t.graph
        (fun v old => old ++ ([dest].filter (· = v)).map fun _ => some pt.block) ∧
      t = { m with graph := t.graph } := by
  have run := get_bind_ok.1 done
  rw [Module.insertBlock?, here] at run
  obtain ⟨linked, eq⟩ := addOperand_ok valid run
  refine ⟨linked.congr ?_, eq⟩
  intro v
  by_cases isTarget : v = dest
  · simp [isTarget]
  · have away : ¬ dest = v := fun eq => isTarget eq.symm
    simp [isTarget, away]

theorem jump_ok (valid : m.graph.Consistent) (done : jump dest m = .ok (i, t)) :
    (∃ d, m.graph.kind? dest = some (.block d)) ∧
      ∃ pt d, Closed m t i .jmp [dest] [dest] pt d := by
  obtain ⟨k, read, run⟩ := ask_bind_ok.1 done
  obtain ⟨hb, run⟩ := ensure_bind_ok.1 run
  obtain ⟨made, mid, inserting, run⟩ := bind_ok.1 run
  obtain ⟨_, last, linking, returning⟩ := bind_ok.1 run
  obtain ⟨rfl, rfl⟩ := pure_ok.1 returning
  obtain ⟨pt, d, inserted⟩ := insertInst_ok valid inserting
  have here : mid.insertPoint = some { pt with index := pt.index + 1 } := by
    rw [inserted.module]
  obtain ⟨linked, eq⟩ := addEdge_ok inserted.consistent here linking
  refine ⟨?_, pt, d, mid, inserted, linked, eq⟩
  rw [kind_eq_ok] at read
  cases k with
  | block b => exact ⟨b, read⟩
  | _ => cases hb

theorem branch_ok {cond thenBlock elseBlock : ValueId} (valid : m.graph.Consistent)
    (done : branch cond thenBlock elseBlock m = .ok (i, t)) :
    (∃ ty, m.graph.ty? cond = some ty ∧ ty.isBool) ∧
      ∃ pt d, Closed m t i .br [cond, thenBlock, elseBlock] [thenBlock, elseBlock] pt d := by
  obtain ⟨ty, read, run⟩ := ask_bind_ok.1 done
  obtain ⟨isBool, run⟩ := ensure_bind_ok.1 run
  obtain ⟨made, mid, inserting, run⟩ := bind_ok.1 run
  obtain ⟨_, m1, linking, run⟩ := bind_ok.1 run
  obtain ⟨_, last, linking', returning⟩ := bind_ok.1 run
  obtain ⟨rfl, rfl⟩ := pure_ok.1 returning
  obtain ⟨pt, d, inserted⟩ := insertInst_ok valid inserting
  have here : mid.insertPoint = some { pt with index := pt.index + 1 } := by
    rw [inserted.module]
  obtain ⟨linked, eq⟩ := addEdge_ok inserted.consistent here linking
  have here' : m1.insertPoint = some { pt with index := pt.index + 1 } := by
    rw [eq]
    exact here
  obtain ⟨linked', same'⟩ := addEdge_ok linked.consistent here' linking'
  refine ⟨⟨ty, ty_eq_ok.1 read, isBool⟩, pt, d, mid, inserted, ?_, ?_⟩
  · refine (linked.trans linked').congr ?_
    intro v
    rw [append_assoc, ← map_append, ← filter_append]
    rfl
  · rw [same', eq]

end Midend.Builder
