import Midend.Pass.Basic
import Midend.Proofs.Module.Text

/-! The pass that computes derived edges gives every block of a function exactly the edges of its
terminators, and changes nothing else. -/
namespace Midend
open Graph

namespace Graph
variable {g : Graph} {f : ValueId} {bs : List ValueId} {dests : ValueId → List ValueId}

def withTargets (blocks : List ValueId) (targets : ValueId → List ValueId) (block : ValueId) (data : Block) : Block :=
  { data with
    succs := (targets block).eraseDups
    preds := (blocks.filter (block ∈ targets ·)).eraseDups }

private theorem recordEdges_edgesOf (g : Graph) (bs : List ValueId) (dests : ValueId → List ValueId) :
    g.recordEdges bs (edgesOf bs dests) =
      g.reblock fun v d => if v ∈ bs then withTargets bs dests v d else d := by
  apply reblock_congr
  intro v d
  by_cases mem : v ∈ bs
  · simp only [if_pos mem, linked, succs_edgesOf mem, preds_edgesOf, withTargets]
  · simp only [if_neg mem]

private theorem calculated (mem : g.functionBlocks f = .ok bs)
    (read : ∀ b ∈ bs, g.targets b = .ok (dests b))
    (closed : ∀ b ∈ bs, ∀ dest ∈ dests b, dest ∈ bs) :
    g.computeEdges f =
      .ok (g.reblock fun v d => if v ∈ bs then withTargets bs dests v d else d) := by
  rw [computeEdges_eq mem read closed, recordEdges_edgesOf]

private theorem block_of_value {v : ValueId} {val : Value} {d : Block} (hit : g.value v = .ok val)
    (hb : val.kind = .block d) : g.block v = .ok d := by
  apply block_eq_ok.2
  rw [← kind_eq_ok, Graph.kind, hit, ← hb]
  rfl

private theorem value_calculated (read : ∀ b ∈ bs, g.targets b = .ok (dests b)) {b : ValueId}
    (mem : b ∈ bs) : ∃ val d, g.value b = .ok val ∧ val.kind = .block d ∧
      (g.reblock fun v d => if v ∈ bs then withTargets bs dests v d else d).value b =
        .ok { val with kind := .block (withTargets bs dests b d) } := by
  obtain ⟨d, hit⟩ := kind?_of_targets (read b mem)
  obtain ⟨val, isValue⟩ := value_of_lt (lt_of_kind? hit)
  have kind : val.kind = .block d := by
    have old := kind_eq_ok.2 hit
    rw [Graph.kind, isValue] at old
    exact Except.ok.inj old
  refine ⟨val, d, isValue, kind, ?_⟩
  rw [value_reblock, isValue]
  simp [Functor.map, Except.map, kind, Kind.edit, mem]

private theorem calculated_again (isIn : g.functionBlocks f = .ok bs)
    (read : ∀ b ∈ bs, g.targets b = .ok (dests b))
    (closed : ∀ b ∈ bs, ∀ dest ∈ dests b, dest ∈ bs) :
    (g.reblock fun v d => if v ∈ bs then withTargets bs dests v d else d).computeEdges f =
      .ok (g.reblock fun v d => if v ∈ bs then withTargets bs dests v d else d) := by
  have insts : ∀ v d, (if v ∈ bs then withTargets bs dests v d else d).insts = d.insts := by
    intro v d
    split <;> rfl
  refine (calculated (by rw [functionBlocks, liveOperands_reblock]; exact isIn) ?_ closed).trans ?_
  · intro b mem
    rw [targets_reblock insts]
    exact read b mem
  · rw [reblock_reblock]
    apply congrArg
    apply reblock_congr
    intro v d
    by_cases mem : v ∈ bs <;> simp [mem, withTargets]

end Graph

/-- After the edges of a function were computed, the successors of a block are the targets of its
terminator, each at its first place, and its predecessors are the blocks that have it as a target, in
the order of the function. Nothing else is changed, the text of the module neither, and computing the
edges once more changes nothing. -/
theorem computed_edges_are_targets {σ : Type} (m : Module) (func : ValueId) (memory : σ) (blocks : List ValueId)
    (targets : ValueId → List ValueId) (listed : m.graph.functionBlocks func = .ok blocks)
    (read : ∀ block ∈ blocks, m.graph.targets block = .ok (targets block))
    (closed : ∀ block ∈ blocks, ∀ target ∈ targets block, target ∈ blocks) :
    ∃ after, Pass.blockCalculate.run func (m.graph, memory) = .ok (false, after, memory) ∧
      (∀ block ∈ blocks, ∃ value data, m.graph.value block = .ok value ∧ value.kind = .block data ∧
        after.value block = .ok { value with kind := .block { data with
          succs := (targets block).eraseDups
          preds := (blocks.filter (block ∈ targets ·)).eraseDups } }) ∧
      (∀ source ∈ blocks, ∀ block ∈ blocks, source ∈ after.predsOf block ↔ block ∈ after.succsOf source) ∧
      (∀ v, v ∉ blocks → after.value v = m.graph.value v) ∧
      after.values.size = m.graph.values.size ∧ after.uses = m.graph.uses ∧
      (∀ text, Module.text { m with graph := after } = .ok text ↔ m.text = .ok text) ∧
      Pass.blockCalculate.run func (after, memory) = .ok (false, after, memory) := by
  have edges : ∀ block ∈ blocks, ∃ data, (m.graph.reblock fun v data =>
      if v ∈ blocks then Graph.withTargets blocks targets v data else data).kind? block =
        some (.block (Graph.withTargets blocks targets block data)) := by
    intro block member
    obtain ⟨data, found⟩ := kind?_of_targets (read block member)
    refine ⟨data, ?_⟩
    rw [kind?_reblock, found]
    simp [Kind.edit, member]
  refine ⟨_, bind_eq_ok.2 ⟨_, Graph.calculated listed read closed, rfl⟩,
    fun block member => value_calculated read member, ?_, ?_, ?_, rfl, ?_,
    bind_eq_ok.2 ⟨_, calculated_again listed read closed, rfl⟩⟩
  · intro source fromBlock block toBlock
    obtain ⟨first, isFirst⟩ := edges source fromBlock
    obtain ⟨second, isSecond⟩ := edges block toBlock
    rw [predsOf_of_kind? isSecond, succsOf_of_kind? isFirst]
    simp [Graph.withTargets, fromBlock]
  · intro v other
    rw [value_reblock]
    cases m.graph.value v with
    | error fault => rfl
    | ok value => simp [Functor.map, Except.map, other, Kind.edit_id]
  · exact Array.size_mapIdx
  · apply Module.text_reblock
    · intro v data
      split <;> rfl
    · intro v data
      split <;> rfl

def outdatedEdges : Module where
  name := "unit"
  functions := [⟨0⟩]
  graph := {
    values := #[
      { kind := .function ⟨"f", []⟩, ty := .func [] .void, operands := [⟨0⟩, ⟨1⟩, ⟨2⟩, ⟨3⟩], operandLimit := none },
      { kind := .block ⟨some "entry", [⟨4⟩], [⟨3⟩], [⟨3⟩, ⟨1⟩], ⟨0⟩⟩, ty := .label, uses := [⟨0⟩], operandLimit := none },
      { kind := .block ⟨some "loop", [⟨5⟩], [], [⟨1⟩], ⟨0⟩⟩, ty := .label, uses := [⟨1⟩, ⟨3⟩, ⟨5⟩, ⟨6⟩, ⟨8⟩],
        operandLimit := none },
      { kind := .block ⟨some "last", [], [⟨1⟩, ⟨3⟩], [], ⟨0⟩⟩, ty := .label, uses := [⟨2⟩, ⟨9⟩], operandLimit := none },
      { kind := .inst ⟨.br, ⟨1⟩, .none⟩, ty := .void, operands := [⟨4⟩, ⟨5⟩, ⟨6⟩], operandLimit := some 3 },
      { kind := .inst ⟨.br, ⟨2⟩, .none⟩, ty := .void, operands := [⟨7⟩, ⟨8⟩, ⟨9⟩], operandLimit := some 3 },
      { kind := .constInt 1, ty := .bool, uses := [⟨4⟩, ⟨7⟩], operandLimit := some 0 }]
    uses := #[
      ⟨some ⟨1⟩, ⟨0⟩⟩, ⟨some ⟨2⟩, ⟨0⟩⟩, ⟨some ⟨3⟩, ⟨0⟩⟩, ⟨some ⟨2⟩, ⟨0⟩⟩, ⟨some ⟨6⟩, ⟨4⟩⟩, ⟨some ⟨2⟩, ⟨4⟩⟩,
      ⟨some ⟨2⟩, ⟨4⟩⟩, ⟨some ⟨6⟩, ⟨5⟩⟩, ⟨some ⟨2⟩, ⟨5⟩⟩, ⟨some ⟨3⟩, ⟨5⟩⟩] }

theorem computed_edges_are_targets_outdated : ∃ after,
    outdatedEdges.graph.functionBlocks ⟨0⟩ = .ok [⟨1⟩, ⟨2⟩, ⟨3⟩, ⟨2⟩] ∧
      outdatedEdges.graph.targets ⟨1⟩ = .ok [⟨2⟩, ⟨2⟩] ∧ outdatedEdges.graph.targets ⟨2⟩ = .ok [⟨2⟩, ⟨3⟩] ∧
      Pass.blockCalculate.run ⟨0⟩ (outdatedEdges.graph, ()) = .ok (false, after, ()) ∧
      after.block ⟨1⟩ = .ok ⟨some "entry", [⟨4⟩], [], [⟨2⟩], ⟨0⟩⟩ ∧
      after.block ⟨2⟩ = .ok ⟨some "loop", [⟨5⟩], [⟨1⟩, ⟨2⟩], [⟨2⟩, ⟨3⟩], ⟨0⟩⟩ ∧
      after.block ⟨3⟩ = .ok ⟨some "last", [], [⟨2⟩], [], ⟨0⟩⟩ ∧
      Pass.blockCalculate.run ⟨0⟩ (after, ()) = .ok (false, after, ()) := by
  obtain ⟨after, done, edges, _, _, _, _, _, again⟩ := computed_edges_are_targets outdatedEdges ⟨0⟩ ()
    [⟨1⟩, ⟨2⟩, ⟨3⟩, ⟨2⟩] (fun v => if v = ⟨1⟩ then [⟨2⟩, ⟨2⟩] else if v = ⟨2⟩ then [⟨2⟩, ⟨3⟩] else [])
    (by decide) (by decide) (by decide)
  have blocks : ∀ v ∈ [⟨1⟩, ⟨2⟩, ⟨3⟩, ⟨2⟩], ∀ old now, outdatedEdges.graph.block v = .ok old →
      Graph.withTargets [⟨1⟩, ⟨2⟩, ⟨3⟩, ⟨2⟩]
        (fun v => if v = ⟨1⟩ then [⟨2⟩, ⟨2⟩] else if v = ⟨2⟩ then [⟨2⟩, ⟨3⟩] else []) v old = now →
      after.block v = .ok now := by
    intro v member old now isOld isNow
    obtain ⟨value, data, isValue, isBlock, found⟩ := edges v member
    obtain rfl : data = old := Except.ok.inj ((block_of_value isValue isBlock).symm.trans isOld)
    rw [← isNow]
    exact block_of_value found rfl
  exact ⟨after, by decide, by decide, by decide, done, blocks _ (by decide) _ _ rfl (by decide),
    blocks _ (by decide) _ _ rfl (by decide), blocks _ (by decide) _ _ rfl (by decide), again⟩

end Midend
