import Midend.Proofs.Flow.Excluded
import Midend.Proofs.Flow.Rounds
import Midend.Proofs.Lower.Program

/-! The two passes that come with the library, one after the other: a function does the same
after its blocks were merged. -/
namespace Midend

namespace Graph.WellFormed
variable {σ : Type} {g : Graph} {f : ValueId}

theorem passes (wf : g.WellFormed f) (memory : σ) :
    ∃ edges upd hm, Pass.blockCalculate.run f (g, memory) = .ok (false, edges, memory) ∧
      Pass.blockMerge.run f (edges, memory) = .ok (upd, hm, memory) ∧
      hm.entryBlock f = g.entryBlock f ∧
      ∀ entry, g.entryBlock f = .ok (some entry) → g.SameRuns hm entry := by
  obtain ⟨edges, upd, hm, computed, done, _, entries, runs⟩ := wf.mergeBlocks
  refine ⟨edges, upd, hm, ?_, ?_, entries, runs⟩
  · exact bind_eq_ok.2 ⟨edges, computed, rfl⟩
  · exact bind_eq_ok.2 ⟨(upd, hm), done, rfl⟩

end Graph.WellFormed

/-- In a well-formed function the same instructions are executed in the same order before and
after its blocks were merged, whatever is decided at branches; and lowered functions are well
formed. -/
theorem merged_blocks_run_alike :
    (∀ {σ : Type} (g : Graph) (func : ValueId) (memory : σ), g.WellFormed func →
      ∃ edges changed merged, Pass.blockCalculate.run func (g, memory) = .ok (false, edges, memory) ∧
        Pass.blockMerge.run func (edges, memory) = .ok (changed, merged, memory) ∧
        merged.entryBlock func = g.entryBlock func ∧
        ∀ entry, g.entryBlock func = .ok (some entry) →
          (∀ choices position inst, g.Executes entry choices position inst ↔
            merged.Executes entry choices position inst) ∧
          ∀ choices position inst, g.Executes entry choices position inst → g.SameInst merged inst) ∧
    ∀ (p : Program) (name : String) (after : Lowering), (Lowering.start name).program p = .ok after →
      ∀ func ∈ after.module.functions, after.module.graph.WellFormed func := by
  refine ⟨?_, ?_⟩
  · intro σ g func memory formed
    obtain ⟨edges, changed, merged, computed, done, entries, runs⟩ := formed.passes memory
    exact ⟨edges, changed, merged, computed, done, entries, fun entry found =>
      ⟨(runs entry found).executes, (runs entry found).same⟩⟩
  · intro p name after done func listed
    exact (((Lowering.settled_start name).program done).settled.functions func listed).1

/-- A lowered loop of which blocks are merged. -/
theorem merged_blocks_run_alike_loop : ∃ (after : Lowering) (func entry : ValueId) (edges merged : Graph),
    (Lowering.start "unit").program mistakeThenLoop = .ok after ∧ func ∈ after.module.functions ∧
      after.module.graph.entryBlock func = .ok (some entry) ∧
      Pass.blockCalculate.run func (after.module.graph, ()) = .ok (false, edges, ()) ∧
      Pass.blockMerge.run func (edges, ()) = .ok (true, merged, ()) ∧
      ∀ choices position inst, after.module.graph.Executes entry choices position inst ↔
        merged.Executes entry choices position inst := by
  have merges : ((Lowering.start "unit").program mistakeThenLoop).map (fun after =>
      after.module.functions.map fun func => (
        Option.isSome <$> after.module.graph.entryBlock func,
        Pass.blockCalculate.run func (after.module.graph, ()) >>= fun state =>
          (·.1) <$> Pass.blockMerge.run func state.2)) = .ok [(.ok true, .ok true)] := by
    decide +kernel
  cases done : (Lowering.start "unit").program mistakeThenLoop with
  | error fault =>
    rw [done] at merges
    cases merges
  | ok after =>
    rw [done] at merges
    obtain ⟨func, only, both⟩ := List.map_eq_singleton_iff.1 (Except.ok.inj merges)
    obtain ⟨entered, merges⟩ := Prod.mk.inj both
    have listed : func ∈ after.module.functions := by simp [only]
    have formed := merged_blocks_run_alike.2 _ _ _ done func listed
    obtain ⟨edges, changed, merged, computed, merging, _, runs⟩ :=
      merged_blocks_run_alike.1 after.module.graph func () formed
    obtain ⟨found, isFound, isSome⟩ := map_eq_ok.1 entered
    obtain ⟨entry, rfl⟩ := Option.isSome_iff_exists.1 isSome
    obtain ⟨state, isState, merges⟩ := bind_eq_ok.1 merges
    cases computed.symm.trans isState
    obtain ⟨result, isResult, isChanged⟩ := map_eq_ok.1 merges
    cases merging.symm.trans isResult
    obtain rfl : changed = true := isChanged
    exact ⟨after, func, entry, edges, merged, rfl, listed, isFound, computed, merging,
      (runs entry isFound).1⟩

/-- Of two functions that are well formed but for one condition, one branches to another block after merging, and the
branch of the other has lost its condition. -/
theorem merged_blocks_run_unlike :
    (∃ g edges merged, Graph.MergeRun Graph.misled.1 Graph.misled.2 g edges merged ∧ g.Apart ⟨0⟩ ∧
      g.Executes ⟨1⟩ (fun _ => true) 1 ⟨8⟩ ∧ ¬ merged.Executes ⟨1⟩ (fun _ => true) 1 ⟨8⟩) ∧
    ∃ g edges merged, Graph.MergeRun Graph.shared.1 Graph.shared.2 g edges merged ∧ g.PlainConditions ⟨0⟩ ∧
      g.Executes ⟨1⟩ (fun _ => true) 0 ⟨6⟩ ∧ ¬ g.SameInst merged ⟨6⟩ := by
  refine ⟨?_, ?_⟩
  · obtain ⟨g, edges, merged, merging, apart, before, after, _⟩ := Graph.misled_merges
    refine ⟨g, edges, merged, merging, apart, ⟨2, by rw [before]; rfl⟩, fun executes => ?_⟩
    have now : merged.Executes ⟨1⟩ (fun _ => true) 1 ⟨9⟩ := ⟨2, by rw [after]; rfl⟩
    cases executes.unique now
  · obtain ⟨g, edges, merged, merging, conditions, before, condition, lost, _⟩ := Graph.shared_merges
    refine ⟨g, edges, merged, merging, conditions, ⟨1, by rw [before]; rfl⟩, fun same => ?_⟩
    have operands := same.operands
    rw [condition, lost] at operands
    cases operands

end Midend
