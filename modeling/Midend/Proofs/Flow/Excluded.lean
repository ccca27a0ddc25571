import Midend.Pass.Basic
import Midend.Proofs.Flow.WellFormed

/-! Two functions whose blocks cannot be merged rightly. Each lacks one of the conditions that structured control flow
has beyond an arrangement: a branch has a block as its condition, or an instruction stands in two blocks. -/
namespace Midend.Graph
open List
variable {g : Graph} {func : ValueId} {values : List (Kind × Ty × Option Nat)} {slots : List (ValueId × ValueId)}

def assemble (values : List (Kind × Ty × Option Nat)) (slots : List (ValueId × ValueId)) : Except Fault Graph :=
  slots.foldlM (fun g slot => (·.2) <$> g.addOperand slot.1 (some slot.2))
    (values.foldl (fun g value => (g.add value.1 value.2.1 value.2.2).2) {})

private theorem consistent_of_values (valid : g.Consistent) :
    (values.foldl (fun g value => (g.add value.1 value.2.1 value.2.2).2) g).Consistent := by
  induction values generalizing g with
  | nil => exact valid
  | cons value rest ih => exact ih (valid.add ..)

private theorem assemble_consistent (built : assemble values slots = .ok g) : g.Consistent := by
  refine foldlM_keeps slots ?_ (consistent_of_values .empty) built
  intro before slot _ after valid added
  obtain ⟨⟨use, graph⟩, isAdded, rfl⟩ := map_eq_ok.1 added
  exact (addOperand_extended isAdded).2.consistent valid

def arranged? (g : Graph) (func : ValueId) : Bool :=
  (g.kind? func).any Kind.isFunction && decide (g.layout func).Nodup && (g.layout func).all fun block =>
    g.isBlock block && (g.code block).all (fun inst => (g.opcode? inst).isSome) && (g.lastOf block).isSome &&
      (g.code block).dropLast.all (fun inst => !g.isTerminator inst) && (g.exits block).all (· ∈ g.layout func)

private theorem arranged_of_check (valid : g.Consistent) (checked : g.arranged? func) : g.Arranged func := by
  simp only [arranged?, Bool.and_eq_true, decide_eq_true_eq, all_eq_true, Bool.not_eq_true'] at checked
  obtain ⟨⟨function, nodup⟩, each⟩ := checked
  refine ⟨valid, ?_, ?_, nodup, ?_, ?_, fun block listed target goes => (each block listed).2 target goes⟩
  · obtain ⟨kind, found, isFunction⟩ := (Option.any_eq_true ..).1 function
    cases kind with
    | function data => exact ⟨data, found⟩
    | _ => cases isFunction
  · intro block listed
    obtain ⟨kind, found, isBlock⟩ := (Option.any_eq_true ..).1 (each block listed).1.1.1.1
    cases kind with
    | block data => exact ⟨data, found⟩
    | _ => cases isBlock
  · intro block listed inst stands
    obtain ⟨op, isOp⟩ := Option.isSome_iff_exists.1 ((each block listed).1.1.1.2 inst stands)
    obtain ⟨data, found, _⟩ := inst_of_opcode? isOp
    exact ⟨data, found⟩
  · intro block listed
    obtain ⟨last, isLast⟩ := Option.isSome_iff_exists.1 (each block listed).1.1.2
    obtain ⟨found, ends⟩ := Option.filter_eq_some_iff.1 isLast
    obtain ⟨body, split⟩ := getLast?_eq_some_iff.1 found
    refine ⟨body, last, split, ends, fun inst stands terminates => ?_⟩
    have inner := (each block listed).1.2 inst (by rwa [split, dropLast_concat])
    rw [terminates] at inner
    cases inner

def confined? (g : Graph) (func : ValueId) : Bool :=
  (range g.values.size).all fun user => (g.layout func).all fun block =>
    !(g.operandsOf ⟨user⟩).contains (some block) || ⟨user⟩ == func || g.isBlock ⟨user⟩ || g.isTerminator ⟨user⟩

private theorem confined_of_check (checked : g.confined? func) : g.Confined func := by
  intro user block listed refers
  have held := all_eq_true.1 (all_eq_true.1 checked user.index (mem_range.2 (lt_of_mem_operandsOf refers))) block listed
  simpa [refers, or_assoc] using held

def plainConditions? (g : Graph) (func : ValueId) : Bool :=
  (range g.values.size).all fun branch => (g.layout func).all fun block =>
    g.opcode? ⟨branch⟩ != some .br || (g.operandsOf ⟨branch⟩).head? != some (some block)

private theorem plainConditions_of_check (checked : g.plainConditions? func) : g.PlainConditions func := by
  intro branch block listed isBranch
  have held := all_eq_true.1 (all_eq_true.1 checked branch.index (mem_range.2 (lt_of_opcode? isBranch))) block listed
  simpa [isBranch] using held

def apart? (g : Graph) (func : ValueId) : Bool :=
  (g.layout func).all fun block => (g.layout func).all fun other =>
    block == other || (g.code block).all fun inst => !(g.code other).contains inst

private theorem apart_of_check (checked : g.apart? func) : g.Apart func := by
  intro block listed other otherListed inst stands otherStands
  have held := all_eq_true.1 (all_eq_true.1 checked block listed) other otherListed
  simp only [Bool.or_eq_true, beq_iff_eq, all_eq_true, Bool.not_eq_true', contains_eq_mem,
    decide_eq_false_iff_not] at held
  exact held.resolve_right fun apart => apart inst stands otherStands

private theorem executed_isPrefix {fewer more : Nat} (le : fewer ≤ more) (choices : Nat → Bool) (rest : List ValueId) :
    g.executed fewer choices rest <+: g.executed more choices rest := by
  induction le with
  | refl => exact prefix_rfl
  | step _ ih => exact ih.trans (g.executed_succ ..)

/-- Two runs that are decided alike execute the same instruction at a position. -/
theorem Executes.unique {entry inst other : ValueId} {choices : Nat → Bool} {position : Nat}
    (executes : g.Executes entry choices position inst) (executesOther : g.Executes entry choices position other) :
    inst = other := by
  obtain ⟨steps, found⟩ := executes
  obtain ⟨otherSteps, foundOther⟩ := executesOther
  have atMost := getElem?_of_isPrefix (executed_isPrefix (Nat.le_max_left steps otherSteps) choices _) found
  rw [getElem?_of_isPrefix (executed_isPrefix (Nat.le_max_right steps otherSteps) choices _) foundOther] at atMost
  exact (Option.some.inj atMost).symm

/-- What merging the blocks of an assembled function starts and ends with. -/
structure MergeRun (values : List (Kind × Ty × Option Nat)) (slots : List (ValueId × ValueId))
    (g edges merged : Graph) : Prop where
  built : assemble values slots = .ok g
  arranged : g.Arranged ⟨0⟩
  confined : g.Confined ⟨0⟩
  entered : g.entryBlock ⟨0⟩ = .ok (some ⟨1⟩)
  computed {σ : Type} (memory : σ) : Pass.blockCalculate.run ⟨0⟩ (g, memory) = .ok (false, edges, memory)
  merges {σ : Type} (memory : σ) : Pass.blockMerge.run ⟨0⟩ (edges, memory) = .ok (true, merged, memory)

def observed (values : List (Kind × Ty × Option Nat)) (slots : List (ValueId × ValueId))
    (seen : Graph → Graph → Bool) : Except Fault Bool := do
  let g ← assemble values slots
  let entry ← g.entryBlock ⟨0⟩
  let edges ← g.computeEdges ⟨0⟩
  let merge ← edges.mergeBlocks ⟨0⟩
  return g.arranged? ⟨0⟩ && g.confined? ⟨0⟩ && entry == some (⟨1⟩ : ValueId) && merge.1 && seen g merge.2

private theorem exists_merging {seen : Graph → Graph → Bool} (done : observed values slots seen = .ok true) :
    ∃ g edges merged, MergeRun values slots g edges merged ∧ seen g merged := by
  obtain ⟨g, built, done⟩ := bind_eq_ok.1 done
  obtain ⟨entry, found, done⟩ := bind_eq_ok.1 done
  obtain ⟨edges, computed, done⟩ := bind_eq_ok.1 done
  obtain ⟨⟨changed, merged⟩, merges, done⟩ := bind_eq_ok.1 done
  have checked := Except.ok.inj done
  simp only [Bool.and_eq_true, beq_iff_eq] at checked
  obtain ⟨⟨⟨⟨arranged, confined⟩, rfl⟩, rfl⟩, holds⟩ := checked
  refine ⟨g, edges, merged, ⟨built, arranged_of_check (assemble_consistent built) arranged,
    confined_of_check confined, found, ?_, ?_⟩, holds⟩
  · exact fun memory => bind_eq_ok.2 ⟨edges, computed, rfl⟩
  · exact fun memory => bind_eq_ok.2 ⟨_, merges, rfl⟩

private def labelled (name : String) (insts : List ValueId) : Kind × Ty × Option Nat :=
  (.block ⟨name, insts, [], [], ⟨0⟩⟩, .label, none)

private def terminator (opcode : Opcode) (parent : ValueId) (limit : Nat) : Kind × Ty × Option Nat :=
  (.inst ⟨opcode, parent, .none⟩, .void, some limit)

def misled : List (Kind × Ty × Option Nat) × List (ValueId × ValueId) :=
  ([(.function ⟨"f", []⟩, .func [] .void, none), labelled "entry" [⟨6⟩], labelled "dead" [⟨7⟩], labelled "then" [⟨8⟩],
    labelled "else" [⟨9⟩], (.constInt 1, .bool, some 0), terminator .br ⟨1⟩ 3, terminator .ret ⟨2⟩ 1,
    terminator .ret ⟨3⟩ 1, terminator .ret ⟨4⟩ 1],
  [(⟨0⟩, ⟨1⟩), (⟨0⟩, ⟨2⟩), (⟨0⟩, ⟨3⟩), (⟨0⟩, ⟨4⟩), (⟨6⟩, ⟨2⟩), (⟨6⟩, ⟨3⟩), (⟨6⟩, ⟨4⟩), (⟨3⟩, ⟨1⟩), (⟨4⟩, ⟨1⟩)])

/-- The slot of the condition goes with the dead block, and the branch has one target left, the wrong one. -/
theorem misled_merges : ∃ g edges merged, MergeRun misled.1 misled.2 g edges merged ∧ g.Apart ⟨0⟩ ∧
    g.executed 2 (fun _ => true) (g.code ⟨1⟩) = [⟨6⟩, ⟨8⟩] ∧
    merged.executed 2 (fun _ => true) (merged.code ⟨1⟩) = [⟨6⟩, ⟨9⟩] ∧
    merged.layout ⟨0⟩ = [⟨1⟩, ⟨3⟩, ⟨4⟩] ∧ merged.exits ⟨1⟩ = [⟨4⟩] ∧ merged.exits ⟨4⟩ = [] := by
  obtain ⟨g, edges, merged, merging, seen⟩ := exists_merging
    (show observed misled.1 misled.2 (fun g merged => g.apart? ⟨0⟩ && decide (
      g.executed 2 (fun _ => true) (g.code ⟨1⟩) = [⟨6⟩, ⟨8⟩] ∧
      merged.executed 2 (fun _ => true) (merged.code ⟨1⟩) = [⟨6⟩, ⟨9⟩] ∧
      merged.layout ⟨0⟩ = [⟨1⟩, ⟨3⟩, ⟨4⟩] ∧ merged.exits ⟨1⟩ = [⟨4⟩] ∧ merged.exits ⟨4⟩ = [])) = .ok true by decide +kernel)
  obtain ⟨apart, rest⟩ := Bool.and_eq_true_iff.1 seen
  exact ⟨g, edges, merged, merging, apart_of_check apart, of_decide_eq_true rest⟩

/-- A function whose entry shares its branch with a block to which control never comes. -/
def shared : List (Kind × Ty × Option Nat) × List (ValueId × ValueId) :=
  ([(.function ⟨"f", []⟩, .func [] .void, none), labelled "entry" [⟨6⟩], labelled "dead" [⟨6⟩], labelled "then" [⟨7⟩],
    labelled "else" [⟨8⟩], (.constInt 1, .bool, some 0), terminator .br ⟨1⟩ 3, terminator .ret ⟨3⟩ 1,
    terminator .ret ⟨4⟩ 1],
  [(⟨0⟩, ⟨1⟩), (⟨0⟩, ⟨2⟩), (⟨0⟩, ⟨3⟩), (⟨0⟩, ⟨4⟩), (⟨6⟩, ⟨5⟩), (⟨6⟩, ⟨3⟩), (⟨6⟩, ⟨4⟩), (⟨3⟩, ⟨1⟩), (⟨4⟩, ⟨1⟩)])

/-- The operands of the branch go with the dead block. -/
theorem shared_merges : ∃ g edges merged, MergeRun shared.1 shared.2 g edges merged ∧ g.PlainConditions ⟨0⟩ ∧
    g.executed 1 (fun _ => true) (g.code ⟨1⟩) = [⟨6⟩] ∧ g.dataOperands ⟨6⟩ = [some ⟨5⟩] ∧
    merged.dataOperands ⟨6⟩ = [] ∧ ⟨3⟩ ∈ merged.layout ⟨0⟩ ∧ merged.exits ⟨1⟩ = [] := by
  obtain ⟨g, edges, merged, merging, seen⟩ := exists_merging
    (show observed shared.1 shared.2 (fun g merged => g.plainConditions? ⟨0⟩ && decide (
      g.executed 1 (fun _ => true) (g.code ⟨1⟩) = [⟨6⟩] ∧ g.dataOperands ⟨6⟩ = [some ⟨5⟩] ∧
      merged.dataOperands ⟨6⟩ = [] ∧ ⟨3⟩ ∈ merged.layout ⟨0⟩ ∧ merged.exits ⟨1⟩ = [])) = .ok true by decide +kernel)
  obtain ⟨conditions, rest⟩ := Bool.and_eq_true_iff.1 seen
  exact ⟨g, edges, merged, merging, plainConditions_of_check conditions, of_decide_eq_true rest⟩

end Midend.Graph
