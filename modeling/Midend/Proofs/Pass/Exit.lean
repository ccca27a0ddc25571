import Midend.Proofs.Pass.Modules

/-! The return of a function. Control can come to it however the statements of the function are
nested, so passes leave it where it is. -/
namespace Midend
open List
open Midend.Graph

/-- A function has one return and no other, which control can come to and which ends its block. -/
structure Graph.ReturnsBy (g : Graph) (func ret : ValueId) : Prop where
  only : (g.listing func).filter (fun inst => g.opcode? inst = some .ret) = [ret]
  ends : ∃ home ∈ g.layout func, (g.code home).getLast? = some ret
  alive : g.Alive func ret

namespace Graph
variable {g after : Graph} {fs gs : List ValueId} {f ret : ValueId}

private theorem Whole.nodup_listing (whole : g.Whole fs gs f) : (g.listing f).Nodup := by
  obtain ⟨entry, tracked⟩ := whole.tracked
  refine nodup_flatMap.2 ⟨tracked.once, whole.nodup.imp_of_mem ?_⟩
  intro b other into inside' ne i mem listed'
  exact ne (whole.apart b into other inside' i mem listed')

theorem Whole.returns (whole : g.Whole fs gs f) (isReturn : g.opcode? ret = some .ret)
    (only : ∀ i ∈ g.listing f, g.opcode? i = some .ret → i = ret) (alive : g.Alive f ret) :
    g.ReturnsBy f ret := by
  obtain ⟨entry, tracked⟩ := whole.tracked
  obtain ⟨home, path, mem⟩ := (alive_iff tracked.head).1 alive
  have into := path.mem_layout whole.toStructured tracked.entry_mem
  refine ⟨?_, ⟨home, into, ?_⟩, alive⟩
  · refine nodup_singleton_iff (whole.nodup_listing.filter _) fun i => ?_
    rw [mem_filter, decide_eq_true_iff]
    constructor
    · exact fun ⟨mem, isRet⟩ => only i mem isRet
    · rintro rfl
      exact ⟨mem_listing.2 ⟨home, into, mem⟩, isReturn⟩
  · obtain ⟨body, last, split, _, inner⟩ := whole.terminated home into
    rw [split] at mem ⊢
    rcases mem_append.1 mem with early | late
    · exact absurd (by rw [isTerminator_of_opcode? isReturn]; rfl) (inner ret early)
    · rw [getLast?_concat, mem_singleton.1 late]

theorem ReturnsBy.opcode? (returns : g.ReturnsBy f ret) : g.opcode? ret = some .ret := by
  have mem : ret ∈ (g.listing f).filter (fun i => g.opcode? i = some .ret) := by
    rw [returns.only]
    exact mem_singleton_self ret
  simpa using (mem_filter.1 mem).2

theorem ReturnsBy.pruned (returns : g.ReturnsBy f ret) (prunes : Prunes f g after)
    (whole : after.Whole fs gs f) : after.ReturnsBy f ret := by
  have isReturn := returns.opcode?
  refine whole.returns (by rw [prunes.opcode?, isReturn]) ?_ (prunes.kept ret returns.alive (by simp [isReturn]))
  intro i isIn isRet
  rw [prunes.opcode?] at isRet
  have mem : i ∈ (g.listing f).filter (fun i => g.opcode? i = some .ret) :=
    mem_filter.2 ⟨prunes.listed isIn, by simpa using isRet⟩
  rw [returns.only] at mem
  exact mem_singleton.1 mem

theorem Whole.first (whole : g.Whole fs gs f) {entry : ValueId}
    (first : (g.layout f).head? = some entry) : (g.operandsOf f).head? = some (some entry) := by
  obtain ⟨other, tracked⟩ := whole.tracked
  obtain ⟨tl, ls⟩ := head?_eq_some_iff.1 tracked.head
  rw [layout, ls] at first
  cases first
  exact tracked.head

end Graph

section Passes
variable {σ : Type} {p : Program} {name : String} {after : Lowering}

/-- However a function is nested, control can come from its entry to its exit, where it returns.
Whichever passes are run at whatever levels, and however often, the function keeps this return at the end
of a block and has no other. -/
theorem exit_survives_passes (done : (Lowering.start name).program p = .ok after) :
    ∀ func ∈ after.module.functions, ∃ entry exit ret, after.module.graph.entryBlock func = .ok (some entry) ∧
      (after.module.graph.layout func).getLast? = some exit ∧ after.module.graph.blockName? exit = some "func_exit" ∧
      after.module.graph.Reaches entry exit ∧ (after.module.graph.code exit).getLast? = some ret ∧
      after.module.graph.ReturnsBy func ret ∧
      ∀ (level : UInt8) (memory : σ) (q : Pipeline σ), Pipeline.Steps (after.pipeline level memory) q →
        (∃ m, q.module = some m ∧ m.functions = after.module.functions ∧ m.graph.ReturnsBy func ret) ∧
          ∃ outcome next, q.runWanted = .ok (outcome, next) := by
  intro func listed
  have ordered := (Lowering.ordered_start name).program done
  have whole := ordered.orderly.whole func listed
  obtain ⟨exit, ret, isFinal, exitName, isLast, isReturn, only, _⟩ := (ordered.functions func listed).2.exit
  obtain ⟨entry, exit', first, isFinal', reached⟩ := ordered.passable func listed
  cases isFinal.symm.trans isFinal'
  have head := whole.first first
  have returns : after.module.graph.ReturnsBy func ret := by
    refine whole.returns isReturn ?_ ⟨entry, exit, head, reached, mem_of_getLast? isLast⟩
    intro inst inside isRet
    obtain ⟨block, member, inside⟩ := mem_listing.1 inside
    exact only block member inst inside isRet
  refine ⟨entry, exit, ret, ?_, isFinal, exitName, reached, isLast, returns, ?_⟩
  · rw [whole.toStructured.entryBlock, head]
    rfl
  · intro level memory q steps
    obtain ⟨m, holds, prunes⟩ := (ordered.pipeline level memory).steps steps
    obtain ⟨outcome, next, _, ran, _⟩ := holds.runWanted
    refine ⟨⟨m, holds.module, prunes.functions, ?_⟩, outcome, next, ran⟩
    exact returns.pruned (prunes.graph func listed) (holds.orderly.whole func (prunes.functions ▸ listed))

def nestedReturns : Program where
  items := [
    .func { name := "f", returnType := .void, params := [], body := .continueLoop .unknown },
    .func
      { name := "f"
        returnType := .int32
        params := [{ name := "n", ty := .int32 }]
        body := .compound [
          .whileDo (.ofInt 1)
            (.compound [
              .ifElse (.ofName "n" .int32) (.ret (some (.ofInt 1)) .unknown) (some (.ret (some (.ofInt 2)) .unknown)) .unknown,
              .breakLoop .unknown,
              .continueLoop .unknown] .unknown) .unknown,
          .ret (some (.ofName "n" .int32)) .unknown,
          .ret (some (.ofInt 3)) .unknown] .unknown }]

theorem exit_survives_passes_twice : ∃ (after : Lowering) (outcome : Outcome) (q next : Pipeline Unit) (m : Module)
    (func ret : ValueId), (Lowering.start "unit").program nestedReturns = .ok after ∧
      after.module.functions = [func] ∧ (after.pipeline 1 ()).runWanted = .ok (outcome, q) ∧ outcome.changed = true ∧
      q.runWanted.toOption.map (·.2) = some next ∧ next.module = some m ∧ m.graph.ReturnsBy func ret := by
  obtain ⟨after, outcome, q, done, mistakes, left, run, changed⟩ :=
    @Lowering.ran_of_counts nestedReturns (fun after => (after.pipeline 1 ()).runWanted) (by decide +kernel)
  obtain ⟨func, isFunc⟩ := length_eq_one_iff.1 left
  obtain ⟨_, _, ret, _, _, _, _, _, _, survives⟩ := @exit_survives_passes Unit _ _ _ done func (by simp [isFunc])
  obtain ⟨_, again, next, ran⟩ := survives 1 () q (.single (.wanted run))
  obtain ⟨⟨m, isModule, _, returns⟩, _⟩ := survives 1 () next (.tail (.single (.wanted run)) (.wanted ran))
  exact ⟨after, outcome, q, next, m, func, ret, done, isFunc, run, changed, by rw [ran]; rfl, isModule, returns⟩

end Passes
end Midend
