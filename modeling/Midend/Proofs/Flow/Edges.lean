import Midend.Pass.Edges
import Midend.Proofs.Flow.Execution
import Midend.Proofs.Graph.Edit

/-! The derived edges of a function are those of its terminators: after they were computed,
the successors of a block are the targets of its last instruction, and its predecessors are
the blocks that have it as a target. -/
namespace Midend.Graph
open List
variable {f source dest b : ValueId} {g before : Graph} {d : Block} {blocks : List ValueId}

def succsOf (g : Graph) (block : ValueId) : List ValueId := ((g.kind? block).map Kind.succs).getD []

def predsOf (g : Graph) (block : ValueId) : List ValueId := ((g.kind? block).map Kind.preds).getD []

def lastOf (g : Graph) (block : ValueId) : Option ValueId := (g.code block).getLast?.filter g.isTerminator

def exits (g : Graph) (block : ValueId) : List ValueId :=
  match g.lastOf block with
  | some last => g.targetsOf last
  | none => []

def edges (g : Graph) (func : ValueId) : List (ValueId × ValueId) :=
  (g.layout func).flatMap fun block => (g.exits block).map (block, ·)

theorem mem_edges : (source, dest) ∈ g.edges f ↔ source ∈ g.layout f ∧ dest ∈ g.exits source := by
  simp [edges]

theorem succsOf_of_kind? (hit : g.kind? b = some (.block d)) : g.succsOf b = d.succs := by
  rw [succsOf, hit]
  rfl

theorem predsOf_of_kind? (hit : g.kind? b = some (.block d)) : g.predsOf b = d.preds := by
  rw [predsOf, hit]
  rfl

namespace Edited
variable {g t : Graph} {blocks : ValueId → Block → Block} {insts : ValueId → Inst → Inst}
  {refs : ValueId → List (Option ValueId) → List (Option ValueId)}

section
variable (edited : g.Edited t blocks insts refs)
include edited

theorem code_eq {v : ValueId} (eq : ∀ d, g.kind? v = some (.block d) → (blocks v d).insts = d.insts) :
    t.code v = g.code v := by
  rw [code, edited.kind? v, code]
  cases hit : g.kind? v with
  | none => rfl
  | some k =>
    cases k with
    | block d => exact eq d hit
    | _ => rfl

theorem opcode? (eq : ∀ v d, (insts v d).opcode = d.opcode) (v : ValueId) :
    t.opcode? v = g.opcode? v := by
  rw [Graph.opcode?, edited.kind? v, Graph.opcode?]
  cases g.kind? v with
  | none => rfl
  | some k =>
    cases k with
    | inst d => exact congrArg some (eq v d)
    | _ => rfl

theorem attr? (eq : ∀ v d, (insts v d).attr = d.attr) (v : ValueId) : t.attr? v = g.attr? v := by
  rw [Graph.attr?, edited.kind? v, Graph.attr?]
  cases g.kind? v with
  | none => rfl
  | some k =>
    cases k with
    | inst d => exact congrArg some (eq v d)
    | _ => rfl

theorem isBlock (v : ValueId) : t.isBlock v = g.isBlock v := by
  rw [Graph.isBlock, edited.kind? v, Graph.isBlock]
  cases g.kind? v with
  | none => rfl
  | some k => cases k <;> rfl

end

end Edited

theorem Consistent.terminator? (hit : g.kind? b = some (.block d)) :
    g.terminator? b = .ok (g.lastOf b) := by
  unfold Graph.terminator?
  rw [block_eq_ok.2 hit, lastOf, code_of_kind? hit]
  rfl

theorem Consistent.targets (valid : g.Consistent) (hit : g.kind? b = some (.block d)) :
    g.targets b = .ok (g.exits b) := by
  unfold Graph.targets exits
  simp only [Consistent.terminator? hit, bind, Except.bind]
  cases last : g.lastOf b with
  | none => rfl
  | some i =>
    have terminates : g.isTerminator i := (Option.filter_eq_some_iff.1 last).2
    obtain ⟨op, hit, _⟩ := opcode?_of_isTerminator terminates
    exact valid.branchTargets (lt_of_opcode? hit)

def linked (edges : List (ValueId × ValueId)) (block : ValueId) (data : Block) : Block :=
  { data with
    succs := ((edges.filter (·.1 = block)).map (·.2)).eraseDups
    preds := ((edges.filter (·.2 = block)).map (·.1)).eraseDups }

private theorem eraseDups_concat (items : List ValueId) (item : ValueId) : (items ++ [item]).eraseDups =
      if item ∈ items.eraseDups then items.eraseDups else items.eraseDups ++ [item] := by
  rw [eraseDups_append]
  by_cases mem : item ∈ items
  · simp [List.removeAll, mem]
  · simp [List.removeAll, mem, eraseDups_cons]

theorem linked_concat (edges : List (ValueId × ValueId)) (source dest b : ValueId) (d : Block) :
    linked (edges ++ [(source, dest)]) b d =
      let left := if b = source then
          (if dest ∈ (linked edges b d).succs then linked edges b d
          else { linked edges b d with succs := (linked edges b d).succs ++ [dest] })
        else linked edges b d
      if b = dest then
        (if source ∈ left.preds then left else { left with preds := left.preds ++ [source] })
      else left := by
  unfold linked
  by_cases isSource : b = source
  · by_cases isTarget : b = dest
    · subst isSource isTarget
      simp [filter_append, eraseDups_concat]
      split <;> split <;> simp_all
    · subst isSource
      have apart : ¬ dest = b := fun eq => isTarget eq.symm
      simp [filter_append, eraseDups_concat, isTarget, apart]
      split <;> simp_all
  · have apart : ¬ source = b := fun eq => isSource eq.symm
    by_cases isTarget : b = dest
    · subst isTarget
      simp [filter_append, eraseDups_concat, isSource, apart]
      split <;> simp_all
    · have away : ¬ dest = b := fun eq => isTarget eq.symm
      simp [filter_append, isSource, isTarget, apart, away]

def Linked (g after : Graph) (blocks : List ValueId) (edges : List (ValueId × ValueId)) : Prop :=
  g.Reblocked after fun v data => if v ∈ blocks then linked edges v data else data

/-- One more edge is recorded at both of its blocks. -/
theorem Linked.step {edges : List (ValueId × ValueId)} (known : g.Linked before blocks edges)
    (areBlocks : ∀ v ∈ blocks, ∃ d, g.kind? v = some (.block d)) (fromBlock : source ∈ blocks)
    (toBlock : dest ∈ blocks) : ∃ t, before.linkBlocks source dest = .ok t ∧
      g.Linked t blocks (edges ++ [(source, dest)]) := by
  obtain ⟨sourceData, sourceFound⟩ := areBlocks source fromBlock
  obtain ⟨targetData, targetFound⟩ := areBlocks dest toBlock
  obtain ⟨mid, first, left⟩ := known.consistent.modifyBlock_edited (known.block_of sourceFound)
    fun b => if dest ∈ b.succs then b else { b with succs := b.succs ++ [dest] }
  obtain ⟨t, second, right⟩ :=
    left.consistent.modifyBlock_edited (left.block_of (known.block_of targetFound))
      fun b => if source ∈ b.preds then b else { b with preds := b.preds ++ [source] }
  refine ⟨t, by rw [linkBlocks, first]; exact second,
    ((Edited.trans known left).trans right).congr ?_ (fun _ _ _ => rfl) fun _ => rfl⟩
  intro v d _
  by_cases mem : v ∈ blocks
  · simp only [if_pos mem, linked_concat]
  · have notSource : v ≠ source := fun eq => mem (eq ▸ fromBlock)
    have notTarget : v ≠ dest := fun eq => mem (eq ▸ toBlock)
    simp [mem, notSource, notTarget]

private theorem Linked.fold {edges : List (ValueId × ValueId)} (known : g.Linked before blocks edges)
    (areBlocks : ∀ v ∈ blocks, ∃ d, g.kind? v = some (.block d)) (fromBlock : source ∈ blocks)
    {dests : List ValueId} (toBlocks : ∀ v ∈ dests, v ∈ blocks) :
    ∃ t, dests.foldlM (fun g dest => g.linkBlocks source dest) before = .ok t ∧
      g.Linked t blocks (edges ++ dests.map (source, ·)) := by
  induction dests generalizing before edges with
  | nil => exact ⟨before, rfl, by simpa using known⟩
  | cons dest rest ih =>
    obtain ⟨mid, first, step⟩ := known.step areBlocks fromBlock (toBlocks dest (mem_cons_self ..))
    obtain ⟨t, folded, final⟩ := ih step fun v mem => toBlocks v (mem_cons_of_mem _ mem)
    refine ⟨t, by rw [foldlM_cons, first]; exact folded, ?_⟩
    simpa [append_assoc] using final

theorem Linked.exits {t : Graph} {edges : List (ValueId × ValueId)} (known : g.Linked t blocks edges)
    (v : ValueId) : t.exits v = g.exits v := by
  have opcodes : ∀ v, t.opcode? v = g.opcode? v := known.opcode? fun _ _ => rfl
  have code : t.code v = g.code v := by
    refine known.code_eq ?_
    intro d _
    split
    · rfl
    · rfl
  unfold Graph.exits lastOf targetsOf Graph.isTerminator
  simp only [code, opcodes, known.operandsOf]

private theorem Linked.foldBlocks {edges : List (ValueId × ValueId)} (known : g.Linked before blocks edges)
    (areBlocks : ∀ v ∈ blocks, ∃ d, g.kind? v = some (.block d))
    (into : ∀ v ∈ blocks, ∀ dest ∈ g.exits v, dest ∈ blocks) {sources : List ValueId}
    (fromBlocks : ∀ v ∈ sources, v ∈ blocks) : ∃ t, sources.foldlM linkTargets before = .ok t ∧
      g.Linked t blocks (edges ++ sources.flatMap fun v => (g.exits v).map (v, ·)) := by
  induction sources generalizing before edges with
  | nil => exact ⟨before, rfl, by simpa using known⟩
  | cons source rest ih =>
    have isBlock := fromBlocks source (mem_cons_self ..)
    obtain ⟨d, hit⟩ := areBlocks source isBlock
    obtain ⟨mid, folded, first⟩ := known.fold areBlocks isBlock (into source isBlock)
    obtain ⟨t, done, final⟩ := ih first fun v mem => fromBlocks v (mem_cons_of_mem _ mem)
    refine ⟨t, ?_, by simpa [append_assoc] using final⟩
    have step : before.linkTargets source = .ok mid := by
      unfold linkTargets
      rw [known.consistent.targets (known.block_of hit), known.exits source]
      exact folded
    rw [foldlM_cons, step]
    exact done

theorem Consistent.computeEdges (valid : g.Consistent) (here : f.index < g.values.size)
    (areBlocks : ∀ v ∈ g.layout f, ∃ d, g.kind? v = some (.block d))
    (into : ∀ v ∈ g.layout f, ∀ dest ∈ g.exits v, dest ∈ g.layout f) :
    ∃ t, g.computeEdges f = .ok t ∧ g.Linked t (g.layout f) (g.edges f) := by
  obtain ⟨cleared, clearing, first⟩ := @Consistent.foldlM_modifyBlock g valid
    (fun b => { b with preds := [], succs := [] }) (fun _ => rfl) (g.layout f) areBlocks
  have start : g.Linked cleared (g.layout f) [] := first
  obtain ⟨t, linking, final⟩ := start.foldBlocks areBlocks into fun _ mem => mem
  refine ⟨t, ?_, final⟩
  unfold Graph.computeEdges
  rw [valid.functionBlocks here]
  exact bind_eq_ok.2 ⟨_, rfl, bind_eq_ok.2 ⟨cleared, clearing, linking⟩⟩

end Midend.Graph
