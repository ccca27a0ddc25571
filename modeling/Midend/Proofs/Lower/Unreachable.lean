import Midend.Proofs.Flow.Passes
import Midend.Proofs.Lower.Mistakes
import Midend.Pass.Basic

/-! Unreachable code. It is lowered and warned of, once for each list of statements, control never comes to it, and it
is gone when blocks have been merged. -/
namespace Midend
open List Graph

namespace Lower
variable {f : FuncDef} {fn : ValueId} {s t : Lowering}

private theorem bodyStretches_run (ran : (functionBody fn f).run s = .ok (.ok (), t)) :
    ∃ found, (bodyStretches fn f).run s = .ok (.ok found, t) := by
  rw [functionBody_eq_stretches, map_eq_pure_bind] at ran
  rcases bind_run ran with ⟨found, mid, first, last⟩ | ⟨e, _, never⟩
  · cases last
    exact ⟨found, first⟩
  · cases never

end Lower

/-- Nothing of a stretch but slots is left when the blocks of a function have been merged. -/
private theorem Graph.Orderly.merges_away {g : Graph} {fs gs : List ValueId} {fn entry : ValueId}
    (orderly : g.Orderly fs gs) (mem : fn ∈ fs) (first : (g.operandsOf fn).head? = some (some entry))
    {σ : Type} (memory : σ) : ∃ edges upd hm, Pass.blockCalculate.run fn (g, memory) = .ok (false, edges, memory) ∧
      Pass.blockMerge.run fn (edges, memory) = .ok (upd, hm, memory) ∧
      ∀ m, g.Skips entry m → ∀ inst, m.Has inst → g.opcode? inst ≠ some .alloca → inst ∉ hm.listing fn := by
  obtain ⟨edges, computed, orderly', edged, _, prunes⟩ := orderly.computeEdges mem
  obtain ⟨upd, hm, done, _, _, pruned, prunes'⟩ := orderly'.mergeBlocks mem edged
  refine ⟨edges, upd, hm, bind_eq_ok.2 ⟨edges, computed, rfl⟩, bind_eq_ok.2 ⟨_, done, rfl⟩, ?_⟩
  intro m skips i has notSlot isIn
  obtain ⟨b, path, isIn⟩ := (alive_iff first).1 (((prunes fn mem).trans (prunes' fn mem)).alive i (pruned.alive isIn))
  exact skips i b has isIn notSlot path

/-- Of a function that is lowered without a mistake, exactly the first unreachable statement of each list is warned of.
While it and what follows it in the list are lowered, all that is emitted but slots stands in blocks that control does not
get to from the entry, and is no longer in the function when its edges have been computed and its blocks merged. -/
theorem unreachable_code_warned_of {p : Program} {unit : String} {f : FuncDef} {s after : Lowering}
    (reached : (Lowering.start unit).program p = .ok s) (lowered : (Lower.function f).run s = .ok (.ok (), after)) :
    ∃ func entry module final found,
      Builder.createFunction f.name f.ty (f.params.map (·.name)) { s.module with contexts := f.location :: s.module.contexts } =
        .ok (func, module) ∧
      Lower.functionBody func f = (fun _ => ()) <$> Lower.bodyStretches func f ∧
      (Lower.bodyStretches func f).run (s.entering f.name func module) = .ok (.ok found, final) ∧
      after.module.graph = final.module.graph ∧
      found.map (·.location) = f.body.unreachable ∧
      after.module.report.diagnostics = s.module.report.diagnostics ++ f.body.unreachable.map .unreachable ∧
      after.module.graph.entryBlock func = .ok (some entry) ∧
      (∀ m ∈ found, ∀ inst op, m.Has inst → after.module.graph.opcode? inst = some op → op ≠ .alloca →
        ∃ block ∈ after.module.graph.layout func, inst ∈ after.module.graph.code block ∧
          ¬ after.module.graph.Reaches entry block) ∧
      ∀ {σ : Type} (memory : σ), ∃ edges changed merged,
        Pass.blockCalculate.run func (after.module.graph, memory) = .ok (false, edges, memory) ∧
        Pass.blockMerge.run func (edges, memory) = .ok (changed, merged, memory) ∧
        ∀ m ∈ found, ∀ inst op, m.Has inst → after.module.graph.opcode? inst = some op → op ≠ .alloca →
          inst ∉ merged.listing func := by
  have ordered := (Lowering.ordered_start unit).program reached
  have run := Lower.function_run lowered
  have ordered' := ordered.function run
  cases run with
  | @kept func module final unknown created body =>
    obtain ⟨⟨args, opened⟩, eq⟩ := Lower.opened_of_created ordered.toSettled created
    obtain ⟨found, traced⟩ := Lower.bodyStretches_run body
    obtain ⟨⟨intact, _⟩, skips, formed, _, _⟩ := (Lower.bodyStretches_finishes .loose opened False.elim).ends _ _ traced
    obtain ⟨more, notes, _, told⟩ := Lower.bodyStretches_notes _ _ _ traced
    obtain ⟨places, rfl⟩ := told found rfl
    have left := Lower.left_of_intact ordered.toSettled eq intact
    let site := Lower.siteOf s.module.graph (s.entering f.name func module) func
    have skeleton : s.module.graph.Skeleton final.module.graph func site.entry := intact.skeleton
    have first : (final.module.graph.operandsOf func).head? = some (some site.entry) := by
      rw [skeleton.laid.slots, head?_map, skeleton.laid.head]
      rfl
    have listed : func ∈ final.left.functions := by simp [left.functions]
    refine ⟨func, site.entry, module, final, found, created, Lower.functionBody_eq_stretches func f, traced, rfl, places,
      ?_, ?_, ?_, ?_⟩
    · show final.module.report.diagnostics = _
      rw [notes, Report.diagnostics_addAll]
      show module.report.diagnostics ++ _ = _
      rw [eq]
    · show final.module.graph.entryBlock func = _
      rw [formed.toStructured.entryBlock, first]
      rfl
    · intro m mem i op has isOp notSlot
      obtain ⟨late, skips⟩ := skips m mem
      obtain ⟨d, hit, rfl⟩ := inst_of_opcode? isOp
      have above : s.module.graph.values.size ≤ i.index :=
        Nat.le_trans opened.added.framed.size (Nat.le_trans late has.1)
      obtain ⟨new, isIn⟩ := skeleton.coded.homes i d above hit
      obtain ⟨b, isBlock⟩ := block_of_mem_code isIn
      have inside : d.parent ∈ final.module.graph.layout func :=
        (skeleton.laid.blocks _).2 ⟨new, by rw [Graph.isBlock, isBlock]; rfl⟩
      exact ⟨d.parent, inside, isIn, skips i d.parent has isIn fun isSlot => notSlot (Option.some.inj (isOp.symm.trans isSlot))⟩
    · intro σ memory
      obtain ⟨edges, changed, merged, computed, merges, gone⟩ := ordered'.orderly.merges_away listed first memory
      refine ⟨edges, changed, merged, computed, merges, fun m mem i op has isOp notSlot => ?_⟩
      exact gone m (skips m mem).2 i has fun isSlot => notSlot (Option.some.inj (isOp.symm.trans isSlot))

def detour : FuncDef where
  name := "detour"
  returnType := .int32
  params := [{ name := "n", ty := .int32 }]
  body := .compound [
    .whileDo (.ofName "n" .int32)
      (.compound [.breakLoop .unknown, .continueLoop ⟨"detour", 3, 1⟩, .ret (some (.ofInt 1)) .unknown] .unknown) .unknown,
    .ret (some (.ofName "n" .int32)) .unknown,
    .compound [.ret (some (.ofInt 2)) .unknown, .expr (.ofInt 3) ⟨"detour", 8, 5⟩] ⟨"detour", 7, 3⟩] .unknown

theorem detour_warned_of : ∃ (after : Lowering) (func entry : ValueId) (found : List Stretch) (merged : Graph),
    (Lower.function detour).run (.start "unit") = .ok (.ok (), after) ∧
      after.module.report.diagnostics =
        [.unreachable ⟨"detour", 3, 1⟩, .unreachable ⟨"detour", 7, 3⟩, .unreachable ⟨"detour", 8, 5⟩] ∧
      found.map (·.location) = [⟨"detour", 3, 1⟩, ⟨"detour", 7, 3⟩, ⟨"detour", 8, 5⟩] ∧
      after.module.graph.entryBlock func = .ok (some entry) ∧
      ∀ m ∈ found, ∀ inst op, m.Has inst → after.module.graph.opcode? inst = some op → op ≠ .alloca →
        inst ∉ merged.listing func ∧ ∃ block ∈ after.module.graph.layout func, inst ∈ after.module.graph.code block ∧
          ¬ after.module.graph.Reaches entry block := by
  obtain ⟨⟨result, after⟩, lowered, isOk⟩ := @ok_of_toOption_map _ _ _ ((Lower.function detour).run (.start "unit"))
    (fun pair => pair.1.toOption.isSome) true (by decide +kernel)
  cases result with
  | error e => cases isOk
  | ok value =>
    have reached : (Lowering.start "unit").program ⟨[]⟩ = .ok (.start "unit") := rfl
    obtain ⟨func, entry, _, _, found, _, _, _, _, places, notes, isEntry, dead, gone⟩ :=
      unreachable_code_warned_of reached lowered
    obtain ⟨_, _, merged, _, _, gone⟩ := gone ()
    exact ⟨after, func, entry, found, merged, lowered, notes, places, isEntry, fun m mem i op has isOp notSlot =>
      ⟨gone m mem i op has isOp notSlot, dead m mem i op has isOp notSlot⟩⟩

end Midend
