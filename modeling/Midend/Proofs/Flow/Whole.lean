import Midend.Proofs.Flow.Cover

/-! Functions beside one another. What is done to one function does not touch the others, as
long as they have nothing in common and only refer to one another as a whole. -/
namespace Midend.Graph
variable {g t : Graph} {fs functions' gs globals' : List ValueId} {f : ValueId}

structure Whole (g : Graph) (functions globals : List ValueId) (func : ValueId) : Prop extends g.WellFormed func where
  tracked : ∃ entry, g.Tracked functions globals func entry
  housed : g.Housed func

structure Orderly (g : Graph) (functions globals : List ValueId) : Prop where
  nodup : functions.Nodup
  whole : ∀ func ∈ functions, g.Whole functions globals func
  apart : ∀ func ∈ functions, ∀ other ∈ functions, func ≠ other → ∀ v, g.Part func v → ¬ g.Part other v

structure Beside (own : ValueId → Prop) (g after : Graph) : Prop where
  consistent : after.Consistent
  kind? : ∀ v, ¬ own v → after.kind? v = g.kind? v
  operandsOf : ∀ v, ¬ own v → after.operandsOf v = g.operandsOf v
  data : ∀ v kind, g.kind? v = some kind → kind.isBlock = false → kind.isInst = false → after.kind? v = some kind
  refs : ∀ user block, g.isBlock block → some block ∈ after.operandsOf user →
    some block ∈ g.operandsOf user ∨ own block

namespace Beside
variable {own : ValueId → Prop}

section Function
variable (beside : Beside own g t) (away : ∀ v, g.Part f v → ¬ own v)
variable {v b : ValueId}
include beside away

theorem opcode? (part : g.Part f v) : t.opcode? v = g.opcode? v := by
  rw [Graph.opcode?, beside.kind? v (away v part), Graph.opcode?]

theorem isTerminator (part : g.Part f v) : t.isTerminator v = g.isTerminator v := by
  rw [Graph.isTerminator, beside.opcode? away part, Graph.isTerminator]

theorem layout : t.layout f = g.layout f := by
  rw [Graph.layout, beside.operandsOf f (away f .self), Graph.layout]

theorem code (mem : b ∈ g.layout f) : t.code b = g.code b := by
  rw [Graph.code, beside.kind? b (away b (.block mem)), Graph.code]

theorem exits (mem : b ∈ g.layout f) : t.exits b = g.exits b := by
  have lasts : t.lastOf b = g.lastOf b :=
    lastOf_congr (beside.code away mem) fun v isIn => beside.opcode? away (.inst mem isIn)
  rw [Graph.exits, lasts, Graph.exits]
  cases ends : g.lastOf b with
  | none => rfl
  | some last =>
    have part : g.Part f last := .inst mem (lastOf_mem ends).1
    simp only [targetsOf, beside.opcode? away part, beside.operandsOf last (away last part)]

theorem part {v : ValueId} (part : g.Part f v) : t.Part f v := by
  cases part with
  | self => exact .self
  | block mem => exact .block (beside.layout away ▸ mem)
  | inst mem isIn =>
    exact .inst (beside.layout away ▸ mem) (beside.code away mem ▸ isIn)

theorem part_of (part : t.Part f v) : g.Part f v := by
  cases part with
  | self => exact .self
  | block mem => exact .block (beside.layout away ▸ mem)
  | inst mem isIn =>
    rw [beside.layout away] at mem
    exact .inst mem (beside.code away mem ▸ isIn)

theorem owned {b user : ValueId} (hb : g.isBlock b)
    (owned : ∀ user, some b ∈ g.operandsOf user → g.Part f user)
    (mem : b ∈ g.layout f) (held : some b ∈ t.operandsOf user) : g.Part f user := by
  rcases beside.refs user b hb held with old | bad
  · exact owned user old
  · exact absurd bad (away b (.block mem))

theorem wellFormed (wf : g.WellFormed f)
    (ownedBlocks : ∀ b ∈ g.layout f, ∀ user, some b ∈ g.operandsOf user → g.Part f user) :
    t.WellFormed f := by
  have layout := beside.layout away
  obtain ⟨d, isFn⟩ := wf.function
  refine ⟨⟨⟨beside.consistent, ⟨d, beside.data f _ isFn rfl rfl⟩, ?_, ?_, ?_, ?_, ?_⟩, ?_, ?_⟩, ?_⟩
  all_goals simp only [Apart, PlainConditions, Confined, layout]
  · intro b mem
    rw [beside.kind? b (away b (.block mem))]
    exact wf.blocks b mem
  · exact wf.nodup
  · intro b mem i isIn
    rw [beside.code away mem] at isIn
    rw [beside.kind? i (away i (.inst mem isIn))]
    exact wf.insts b mem i isIn
  · intro b mem
    obtain ⟨body, last, split, ends, inner⟩ := wf.terminated b mem
    have part : ∀ i ∈ body ++ [last], g.Part f i := fun i isIn => .inst mem (split ▸ isIn)
    refine ⟨body, last, by rw [beside.code away mem, split], ?_, ?_⟩
    · rw [beside.isTerminator away (part last (by simp))]
      exact ends
    · intro i isIn
      rw [beside.isTerminator away (part i (by simp [isIn]))]
      exact inner i isIn
  · intro b mem dest goes
    rw [beside.exits away mem] at goes
    exact wf.targets b mem dest goes
  · intro b mem w member' i isIn listed'
    rw [beside.code away mem] at isIn
    rw [beside.code away member'] at listed'
    exact wf.apart b mem w member' i isIn listed'
  · intro branch b mem isBranch head
    have held : some b ∈ t.operandsOf branch := List.mem_of_head? head
    have part := beside.owned away (wf.isBlock mem) (ownedBlocks b mem) mem held
    rw [beside.opcode? away part] at isBranch
    rw [beside.operandsOf branch (away branch part)] at head
    exact wf.conditions branch b mem isBranch head
  · intro user b mem held
    have part := beside.owned away (wf.isBlock mem) (ownedBlocks b mem) mem held
    rw [Graph.isBlock, beside.kind? user (away user part), ← Graph.isBlock, beside.isTerminator away part]
    rw [beside.operandsOf user (away user part)] at held
    exact wf.references user b mem held

theorem inst {b i v : ValueId} {d : Inst} (housed : g.Housed f)
    (ops : ∀ slot ∈ g.operandsOf i, g.Operand fs gs f i slot)
    (mem : b ∈ g.layout f) (isIn : i ∈ g.code b) (used : some v ∈ g.operandsOf i)
    (hit : t.kind? v = some (.inst d)) : g.kind? v = some (.inst d) := by
  cases ops _ used with
  | shared shared =>
    obtain ⟨k, old, nb, notInst⟩ := shared.data
    cases (beside.data v k old nb notInst).symm.trans hit
    cases notInst
  | target _ into => rwa [beside.kind? v (away v (.block into))] at hit
  | result old =>
    obtain ⟨home, inLayout, computed⟩ := housed b mem i isIn v _ used old
    rwa [beside.kind? v (away v (.inst inLayout computed))] at hit

end Function

theorem covered {entry : ValueId} {avail : ValueId → ValueId → Prop} (beside : Beside own g t)
    (away : ∀ v, g.Part f v → ¬ own v) (housed : g.Housed f) (covered : g.Covered f entry avail)
    (ops : ∀ b ∈ g.layout f, ∀ i ∈ g.code b, ∀ slot ∈ g.operandsOf i,
      g.Operand fs gs f i slot) (entered : entry ∈ g.layout f) :
    t.Covered f entry fun b v => avail b v ∧ ∃ home ∈ g.layout f, v ∈ g.code home where
  bare v known := covered.bare v known.1
  inner b v := by
    intro ⟨known, home, mem, computed⟩
    obtain ⟨d, hit, inner⟩ := covered.inner b v known
    exact ⟨d, by rwa [beside.kind? v (away v (.inst mem computed))], inner⟩
  edges b mem next goes v := by
    intro ⟨known, home⟩
    rw [beside.layout away] at mem
    rw [beside.exits away mem] at goes
    rw [beside.code away mem]
    exact (covered.edges b mem next goes v known).imp_left fun before => ⟨before, home⟩
  results b mem i isIn v d used hit := by
    rw [beside.layout away] at mem
    rw [beside.code away mem] at isIn ⊢
    rw [beside.operandsOf i (away i (.inst mem isIn))] at used
    have old := beside.inst away housed (ops b mem i isIn) mem isIn used hit
    rw [beside.code away entered]
    refine (covered.results b mem i isIn v d used old).imp_right (Or.imp_left fun known => ?_)
    exact ⟨known, housed b mem i isIn v d used old⟩

theorem whole (beside : Beside own g t) (away : ∀ v, g.Part f v → ¬ own v)
    (more : fs ⊆ functions') (moreGlobals : gs ⊆ globals') (whole : g.Whole fs gs f) :
    t.Whole functions' globals' f := by
  obtain ⟨entry, tracked⟩ := whole.tracked
  have wf := whole.toWellFormed
  have layout := beside.layout away
  have exits : ∀ block ∈ g.layout f, t.exits block = g.exits block := fun block => beside.exits away
  have operandsOf : ∀ v, g.Part f v → t.operandsOf v = g.operandsOf v := fun v part =>
    beside.operandsOf v (away v part)
  refine ⟨beside.wellFormed away wf tracked.owned, ⟨entry, ?_, ?_, ?_, ?_, ?_, ?_⟩, ?_⟩
  · rw [operandsOf f .self]
    exact tracked.head
  · rw [layout]
    intro block mem inst isIn slot held
    rw [beside.code away mem] at isIn
    have part : g.Part f inst := .inst mem isIn
    rw [operandsOf inst part] at held
    cases tracked.operands block mem inst isIn slot held with
    | shared shared => exact .shared (shared.stays beside.data more moreGlobals)
    | target ends into => exact .target (by rwa [beside.isTerminator away part]) (layout ▸ into)
    | @result v d found inner =>
      obtain ⟨home, inLayout, computed⟩ := whole.housed block mem inst isIn v d held found
      have partV : g.Part f v := .inst inLayout computed
      exact .result (by rwa [beside.kind? v (away v partV)]) (by rwa [beside.isTerminator away partV])
  · rw [layout]
    intro block mem
    rw [beside.code away mem]
    exact tracked.once block mem
  · obtain ⟨av, covered⟩ := tracked.covered
    exact ⟨_, beside.covered away whole.housed covered tracked.operands tracked.entry_mem⟩
  · exact tracked.recorded.congr (by rw [layout]) exits fun block mem => operandsOf block (.block mem)
  · rw [layout]
    intro block mem user held
    exact beside.part away (beside.owned away (wf.isBlock mem) (tracked.owned block mem) mem held)
  · rw [Housed, layout]
    intro block mem inst isIn v d used found
    rw [beside.code away mem] at isIn
    rw [operandsOf inst (.inst mem isIn)] at used
    obtain ⟨home, inLayout, computed⟩ := whole.housed block mem inst isIn v d used
      (beside.inst away whole.housed (tracked.operands block mem inst isIn) mem isIn used found)
    exact ⟨home, inLayout, by rwa [beside.code away inLayout]⟩

end Beside
end Midend.Graph
