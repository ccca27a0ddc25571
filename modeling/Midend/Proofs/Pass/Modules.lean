import Mathlib.Data.List.Count
import Midend.Proofs.Lower.Ordered
import Midend.Proofs.Pass.Builtin

/-! What holds of a lowered module, mistakes or not, and of what passes make of it: operands are
values that are there and computed before, and the operands of blocks are the edges between
them. -/
namespace Midend
open List
open Midend.Graph

/-- What an operand of an instruction of a function may be: a constant, a global or a function of
the module, or an argument of the function; a block of the function, for terminators; or an
instruction of the function. -/
inductive Graph.Reference (g : Graph) (functions globals blocks : List ValueId) (func inst : ValueId) :
    Option ValueId → Prop
  | shared {v : ValueId} (shared : g.Shared functions globals func v) :
      Reference g functions globals blocks func inst (some v)
  | target {v : ValueId} (ends : g.isTerminator inst) (inside : v ∈ blocks) :
      Reference g functions globals blocks func inst (some v)
  | result {v home : ValueId} (inside : home ∈ blocks) (computed : v ∈ g.code home) :
      Reference g functions globals blocks func inst (some v)

namespace Module
variable {m : Module}

/-- Every operand is a value that is there, and whatever way control takes to an instruction, it has
passed those instructions that are operands of it. -/
def OperandsComputed (m : Module) : Prop :=
  ∀ func ∈ m.functions, ∃ entry blocks, m.graph.entryBlock func = .ok (some entry) ∧
    m.graph.functionBlocks func = .ok blocks ∧ ∀ block ∈ blocks, ∃ data, m.graph.block block = .ok data ∧
      ∀ front inst rest, data.insts = front ++ inst :: rest → ∃ slots, m.graph.operands inst = .ok slots ∧
        ∀ slot ∈ slots, m.graph.Reference m.functions m.globals blocks func inst slot ∧
          ∀ passed v operand, m.graph.Path entry passed block → slot = some v → m.graph.kind? v = some (.inst operand) →
            v ∈ passed.flatMap m.graph.code ++ front

/-- The operands of a block are blocks of its function, each as often as its terminator leads to the
block. -/
def BlocksLinked (m : Module) : Prop :=
  ∀ func ∈ m.functions, ∃ blocks, m.graph.functionBlocks func = .ok blocks ∧ blocks.Nodup ∧
    ∀ block ∈ blocks, ∃ preds, m.graph.operands block = .ok (preds.map some) ∧ m.graph.liveOperands block = .ok preds ∧
      (∀ pred ∈ preds, pred ∈ blocks) ∧
      ∀ pred ∈ blocks, ∃ targets, m.graph.targets pred = .ok targets ∧ preds.count pred = targets.count block

private theorem operandsComputed (orderly : m.graph.Orderly m.functions m.globals) : m.OperandsComputed := by
  intro f isIn
  have whole := orderly.whole f isIn
  have wf := whole.toWellFormed
  obtain ⟨entry, tracked⟩ := whole.tracked
  obtain ⟨av, covered⟩ := tracked.covered
  refine ⟨entry, m.graph.layout f, ?_, wf.consistent.functionBlocks wf.inside, ?_⟩
  · rw [wf.entryBlock, tracked.head]
    rfl
  intro b mem
  obtain ⟨d, hb⟩ := wf.blocks b mem
  refine ⟨d, block_eq_ok.2 hb, ?_⟩
  intro front i tl split
  rw [← code_of_kind? hb] at split
  have into : i ∈ m.graph.code b := by simp [split]
  obtain ⟨inner, isInst⟩ := wf.insts b mem i into
  refine ⟨m.graph.operandsOf i, wf.consistent.operands (lt_of_kind? isInst), ?_⟩
  intro slot held
  refine ⟨?_, ?_⟩
  · cases tracked.operands b mem i into slot held with
    | shared shared => exact .shared shared
    | target ends inLayout => exact .target ends inLayout
    | result hit =>
      obtain ⟨home, inLayout, computed⟩ := whole.housed b mem i into _ _ held hit
      exact .result inLayout computed
  · intro passed v arg path eq hit
    subst eq
    exact covered.computed_before wf.targets tracked.entry_mem path split (tracked.once b mem) held hit

private theorem count_incoming {g : Graph} {f b pred : ValueId} (nodup : (g.layout f).Nodup)
    (mem : pred ∈ g.layout f) : (g.incoming f b).count (some pred) = (g.exits pred).count b := by
  have absent : ∀ others : List ValueId, pred ∉ others → (others.flatMap (g.incomingFrom b)).count (some pred) = 0 := by
    intro others outside
    rw [count_eq_zero, mem_flatMap]
    intro ⟨other, isIn, edge⟩
    cases (mem_replicate.1 edge).2
    exact outside isIn
  obtain ⟨front, back, split⟩ := append_of_mem mem
  rw [split, nodup_middle, nodup_cons, mem_append, not_or] at nodup
  rw [incoming, split, flatMap_append, flatMap_cons, count_append, count_append,
    absent front nodup.1.1, absent back nodup.1.2, incomingFrom, count_replicate_self]
  omega

private theorem blocksLinked (orderly : m.graph.Orderly m.functions m.globals) : m.BlocksLinked := by
  intro f isIn
  have whole := orderly.whole f isIn
  have wf := whole.toWellFormed
  obtain ⟨entry, tracked⟩ := whole.tracked
  refine ⟨m.graph.layout f, wf.consistent.functionBlocks wf.inside, wf.nodup, ?_⟩
  intro b mem
  obtain ⟨d, hb⟩ := wf.blocks b mem
  have recorded := tracked.recorded b mem
  have ops := wf.consistent.operands (lt_of_kind? hb)
  have old : ∀ slot ∈ m.graph.operandsOf b, ∃ pred ∈ m.graph.layout f, some pred = slot := by
    intro slot held
    obtain ⟨pred, into, edge⟩ := mem_flatMap.1 (recorded.mem_iff.1 held)
    exact ⟨pred, into, (mem_replicate.1 edge).2.symm⟩
  have ls : ((m.graph.operandsOf b).filterMap id).map some = m.graph.operandsOf b := by
    rw [map_filterMap]
    refine (filterMap_congr fun slot held => ?_).trans filterMap_some
    obtain ⟨pred, _, rfl⟩ := old slot held
    rfl
  refine ⟨(m.graph.operandsOf b).filterMap id, by rw [ls, ops], ?_, ?_, ?_⟩
  · rw [liveOperands, ops]
    rfl
  · intro pred held
    obtain ⟨slot, isSlot, eq⟩ := mem_filterMap.1 held
    obtain ⟨other, into, rfl⟩ := old slot isSlot
    cases eq
    exact into
  · intro pred into
    obtain ⟨predData, isPred⟩ := wf.blocks pred into
    refine ⟨m.graph.exits pred, wf.consistent.targets isPred, ?_⟩
    have counted : ((m.graph.operandsOf b).filterMap id).count pred = (m.graph.operandsOf b).count (some pred) := by
      nth_rewrite 2 [← ls]
      rw [count_map_of_injective _ _ fun _ _ => Option.some.inj]
    rw [counted, recorded.count_eq, count_incoming wf.nodup into]

end Module

section Passes
variable {σ : Type} {p : Program} {name : String} {after : Lowering}

/-- A lowered module in a pipeline of the passes that come with the library. -/
def Lowering.pipeline (after : Lowering) (level : UInt8) (memory : σ) : Pipeline σ :=
  Pipeline.registerBuiltin { module := some after.module, level, memory }

theorem Lowering.Ordered.pipeline (ord : after.Ordered) (level : UInt8) (memory : σ) :
    (after.pipeline level memory).Holds after.module :=
  ⟨Pipeline.registry_registerBuiltin _ rfl, rfl, ord.orderly⟩

private theorem Lowering.orderly_after_passes (done : (Lowering.start name).program p = .ok after) {level : UInt8} {memory : σ}
    {q : Pipeline σ} (steps : Pipeline.Steps (after.pipeline level memory) q) :
    ∃ m, q.module = some m ∧ m.functions = after.module.functions ∧ m.globals = after.module.globals ∧
      m.graph.Orderly m.functions m.globals := by
  have ord := (Lowering.ordered_start name).program done
  obtain ⟨m, h, prunes⟩ := (ord.pipeline level memory).steps steps
  exact ⟨m, h.module, prunes.functions, prunes.globals, h.orderly⟩

/-- A program with one mistake and one function left, in which passes change something, from what can
be computed of it. -/
theorem Lowering.ran_of_counts {p : Program} {run : Lowering → Except RunError (Outcome × Pipeline Unit)}
    (counts : ((Lowering.start "unit").program p).toOption.map (fun after =>
      (after.module.report.errorCount, after.module.functions.length, (run after).toOption.map (·.1.changed))) =
        some (1, 1, some true)) :
    ∃ after outcome q, (Lowering.start "unit").program p = .ok after ∧ after.module.report.errorCount = 1 ∧
      after.module.functions.length = 1 ∧ run after = .ok (outcome, q) ∧ outcome.changed = true := by
  cases done : (Lowering.start "unit").program p with
  | error fault =>
    rw [done] at counts
    cases counts
  | ok after =>
    rw [done] at counts
    obtain ⟨mistakes, left, ran⟩ := by simpa only [Prod.mk.injEq] using Option.some.inj counts
    cases res : run after with
    | error e =>
      rw [res] at ran
      cases ran
    | ok pair =>
      rw [res] at ran
      exact ⟨after, pair.1, pair.2, rfl, mistakes, left, res, Option.some.inj ran⟩

/-- Whatever mistakes the program has, and whichever passes are run on the lowered module at whatever
levels: each operand of an instruction is there, and it has been computed wherever control comes from. -/
theorem operands_computed_before_use (done : (Lowering.start name).program p = .ok after) (level : UInt8) (memory : σ)
    (q : Pipeline σ) (steps : Pipeline.Steps (after.pipeline level memory) q) :
    ∃ m, q.module = some m ∧ m.functions = after.module.functions ∧ m.globals = after.module.globals ∧
      m.OperandsComputed := by
  obtain ⟨m, isModule, functions, globals, orderly⟩ := Lowering.orderly_after_passes done steps
  exact ⟨m, isModule, functions, globals, Module.operandsComputed orderly⟩

def guardedRecursion : Program where
  items := [
    .global { name := "limit", ty := .int32, initializer := some (.ofInt 3) },
    .func { name := "f", returnType := .int32, params := [], body := .ret (some (.ofName "missing" .int32)) .unknown },
    .func
      { name := "f"
        returnType := .int32
        params := [{ name := "n", ty := .int32 }]
        body := .compound [
          .whileDo (.ofBinary (.logic .and) (.ofName "n" .int32) (.ofName "limit" .int32))
            (.expr (.ofBinary (.assign none) (.ofName "n" .int32) (.ofCall "f" [.ofName "n" .int32] .int32)) .unknown) .unknown,
          .ret (some (.ofName "n" .int32)) .unknown] .unknown }]

theorem operands_computed_before_use_in_recursion : ∃ (after : Lowering) (outcome : Outcome) (q : Pipeline Unit) (m : Module),
    (Lowering.start "unit").program guardedRecursion = .ok after ∧ after.module.report.errorCount = 1 ∧
      (after.pipeline 1 ()).runWanted = .ok (outcome, q) ∧ outcome.changed = true ∧ q.module = some m ∧
      m.functions.length = 1 ∧ m.OperandsComputed := by
  obtain ⟨after, outcome, q, done, mistakes, left, run, changed⟩ :=
    @Lowering.ran_of_counts guardedRecursion (fun after => (after.pipeline 1 ()).runWanted) (by decide +kernel)
  obtain ⟨m, isModule, functions, _, computed⟩ :=
    operands_computed_before_use done 1 () q (.single (.wanted run))
  exact ⟨after, outcome, q, m, done, mistakes, run, changed, isModule, functions ▸ left, computed⟩

/-- Whatever mistakes the program has, and whichever passes are run on the lowered module at whatever
levels: the operands of blocks and the terminators record the same edges. -/
theorem block_operands_are_edges (done : (Lowering.start name).program p = .ok after) (level : UInt8) (memory : σ)
    (q : Pipeline σ) (steps : Pipeline.Steps (after.pipeline level memory) q) :
    ∃ m, q.module = some m ∧ m.functions = after.module.functions ∧ m.BlocksLinked := by
  obtain ⟨m, isModule, functions, _, orderly⟩ := Lowering.orderly_after_passes done steps
  exact ⟨m, isModule, functions, Module.blocksLinked orderly⟩

theorem block_operands_are_edges_beside_mistake : ∃ (after : Lowering) (outcome : Outcome) (q : Pipeline Unit) (m : Module),
    (Lowering.start "unit").program mistakeThenLoop = .ok after ∧ after.module.report.errorCount = 1 ∧
      (after.pipeline 0 ()).runNamed "BlockMerge" = .ok (outcome, q) ∧ outcome.changed = true ∧ q.module = some m ∧
      m.functions.length = 1 ∧ m.BlocksLinked := by
  obtain ⟨after, outcome, q, done, mistakes, left, run, changed⟩ := @Lowering.ran_of_counts mistakeThenLoop
    (fun after => (after.pipeline 0 ()).runNamed "BlockMerge") (by decide +kernel)
  obtain ⟨m, isModule, functions, linked⟩ := block_operands_are_edges done 0 () q (.single (.named run))
  exact ⟨after, outcome, q, m, done, mistakes, run, changed, isModule, functions ▸ left, linked⟩

end Passes
end Midend
