import Midend.Proofs.Flow.Shape
import Midend.Proofs.Meaning.Machine

/-! What is added to a graph changes nothing of what the functions before it do. -/
namespace Midend.Graph
open List
variable {g t : Graph} {args : List Datum} {m m' : Machine} {i v : ValueId} {d : Inst} {n : Nat}

theorem Framed.datum (framed : g.Framed t) (inside : v.index < g.values.size) :
    t.datum args m v = g.datum args m v := by
  unfold Graph.datum
  rw [framed.kind? v inside, framed.ty? v inside]

section Instructions
variable (framed : g.Framed t) (valid : g.Consistent) (inside : i.index < g.values.size)
include framed valid inside

theorem Framed.result? : t.result? args m i d = g.result? args m i d := by
  have ops : ∀ v, some v ∈ g.operandsOf i → t.datum args m v = g.datum args m v :=
    fun v held => framed.datum (valid.operand_lt held)
  unfold Graph.result?
  rw [framed.operandsOf i inside, framed.ty? i inside]
  generalize g.operandsOf i = ls at ops
  split <;> simp_all

theorem Framed.perform : t.perform args m i d = g.perform args m i d := by
  have res : t.result? args m i d = g.result? args m i d := framed.result? valid inside
  have ops : ∀ v, some v ∈ g.operandsOf i → t.datum args m v = g.datum args m v :=
    fun v held => framed.datum (valid.operand_lt held)
  have types : ∀ v, some v ∈ g.operandsOf i → t.ty? v = g.ty? v :=
    fun v held => framed.ty? v (valid.operand_lt held)
  unfold Graph.perform Graph.stored?
  rw [framed.operandsOf i inside, framed.ty? i inside]
  generalize g.operandsOf i = ls at ops types
  split <;> simp_all

end Instructions

private theorem block_of_perform (taken : g.perform args m i d = .goes m') :
    m'.block = m.block ∨ some m'.block ∈ g.operandsOf i := by
  unfold Graph.perform at taken
  split at taken
  next =>
    cases taken
    exact .inl rfl
  next =>
    split at taken
    · cases taken
      exact .inl rfl
    · cases taken
  next dest _ ls =>
    cases taken
    exact .inr (ls ▸ mem_cons_self)
  next cond thenBlock elseBlock _ ls =>
    split at taken
    next choice _ =>
      cases taken
      refine .inr (ls ▸ ?_)
      cases choice with
      | false => exact mem_cons_of_mem _ (mem_cons_of_mem _ mem_cons_self)
      | true => exact mem_cons_of_mem _ mem_cons_self
    next => cases taken
  next => cases taken
  next => split at taken <;> cases taken
  next =>
    split at taken
    · cases taken
      exact .inl rfl
    · cases taken

private theorem Consistent.block_lt (valid : g.Consistent) (taken : g.execute args m = .goes m')
    (inside : m.block.index < g.values.size) : m'.block.index < g.values.size := by
  unfold Graph.execute at taken
  split at taken
  next i _ =>
    split at taken
    next d _ =>
      rcases block_of_perform taken with eq | held
      · rw [eq]
        exact inside
      · exact valid.operand_lt held
    next => cases taken
  next => cases taken

private theorem Steps.block_lt (steps : g.Steps args n m m') (valid : g.Consistent) (inside : m.block.index < g.values.size) :
    m'.block.index < g.values.size := by
  induction steps with
  | refl => exact inside
  | step taken _ ih => exact ih (valid.block_lt taken inside)

section Runs
variable (framed : g.Framed t) (valid : g.Consistent) (contained : g.Contained)
  (inside : m.block.index < g.values.size)
include framed valid contained inside

theorem Framed.execute : t.execute args m = g.execute args m := by
  unfold Graph.execute
  rw [framed.code inside]
  cases hit : (g.code m.block)[m.index]? with
  | none => rfl
  | some i =>
    have lt := contained.code (mem_of_getElem? hit)
    dsimp only
    rw [framed.kind? i lt]
    split
    · exact framed.perform valid lt
    · rfl

private theorem Framed.steps_iff : t.Steps args n m m' ↔ g.Steps args n m m' := by
  constructor
  · intro steps
    induction steps with
    | refl => exact .refl _
    | step taken _ ih =>
      rw [framed.execute valid contained inside] at taken
      exact .step taken (ih (valid.block_lt taken inside))
  · intro steps
    induction steps with
    | refl => exact .refl _
    | step taken _ ih =>
      exact .step ((framed.execute valid contained inside).trans taken) (ih (valid.block_lt taken inside))

private theorem Framed.halts_iff {effect : Effect} : t.Halts args m effect ↔ g.Halts args m effect := by
  constructor
  · intro ⟨n, last, steps, ends, final⟩
    rw [framed.steps_iff valid contained inside] at steps
    rw [framed.execute valid contained (steps.block_lt valid inside)] at ends
    exact ⟨n, last, steps, ends, final⟩
  · intro ⟨n, last, steps, ends, final⟩
    rw [← framed.execute valid contained (steps.block_lt valid inside)] at ends
    exact ⟨n, last, (framed.steps_iff valid contained inside).2 steps, ends, final⟩

private theorem Framed.endless_iff : t.Endless args m ↔ g.Endless args m :=
  forall_congr' fun _ => exists_congr fun _ => framed.steps_iff valid contained inside

end Runs

section Calls
variable {f : ValueId} {memory : ValueId → Option Datum} (framed : g.Framed t) (valid : g.Consistent)
  (inside : f.index < g.values.size) (contained : g.Contained)
include framed valid inside

private theorem Framed.call_iff {ends ends' : Machine → Prop}
    (eq : ∀ s0, s0.block.index < g.values.size → (ends s0 ↔ ends' s0)) :
    (∃ s0, t.called f memory = some s0 ∧ ends s0) ↔
      ∃ s0, g.called f memory = some s0 ∧ ends' s0 := by
  have called : t.called f memory = g.called f memory := by
    unfold Graph.called
    rw [framed.layout inside]
  rw [called]
  refine exists_congr fun s0 => and_congr_right fun begun => eq s0 ?_
  obtain ⟨entry, isEntry, rfl⟩ := Option.map_eq_some_iff.1 begun
  exact valid.operand_lt (mem_layout.1 (mem_of_mem_head? isEntry))

include contained

theorem Framed.returns_iff {val : Option Datum} {memory' : ValueId → Option Datum} :
    t.Returns args f memory val memory' ↔ g.Returns args f memory val memory' :=
  framed.call_iff valid inside fun _ lt => framed.halts_iff valid contained lt

theorem Framed.sticks_iff : t.Sticks args f memory ↔ g.Sticks args f memory :=
  framed.call_iff valid inside fun _ lt => framed.halts_iff valid contained lt

theorem Framed.diverges_iff : t.Diverges args f memory ↔ g.Diverges args f memory :=
  framed.call_iff valid inside fun _ lt => framed.endless_iff valid contained lt

end Calls

end Midend.Graph
