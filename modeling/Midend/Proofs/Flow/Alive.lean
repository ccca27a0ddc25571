import Midend.Proofs.Flow.Retained

/-! Instructions that control can come to. Passes over a function keep those of them that do
something, and none gets into it anew. -/
namespace Midend.Graph
open List
variable {g mid t : Graph} {f entry i : ValueId}

def listing (g : Graph) (func : ValueId) : List ValueId :=
  (g.layout func).flatMap g.code

theorem nodup_singleton_iff {items : List ValueId} {item : ValueId} (nodup : items.Nodup)
    (only : ∀ v, v ∈ items ↔ v = item) : items = [item] := by
  apply perm_singleton.1
  rw [perm_ext_iff_of_nodup nodup (nodup_singleton item)]
  simpa using only

theorem mem_listing : i ∈ g.listing f ↔ ∃ b ∈ g.layout f, i ∈ g.code b :=
  mem_flatMap

def Alive (g : Graph) (func inst : ValueId) : Prop :=
  ∃ entry block, (g.operandsOf func).head? = some (some entry) ∧ g.Reaches entry block ∧ inst ∈ g.code block

def Pruned (g : Graph) (func : ValueId) : Prop :=
  ∃ entry, (g.operandsOf func).head? = some (some entry) ∧ ∀ block ∈ g.layout func, g.Reaches entry block

theorem Pruned.alive (pruned : g.Pruned f) (mem : i ∈ g.listing f) : g.Alive f i := by
  obtain ⟨entry, first, path⟩ := pruned
  obtain ⟨b, into, mem⟩ := mem_listing.1 mem
  exact ⟨entry, b, first, path b into, mem⟩

theorem alive_iff (first : (g.operandsOf f).head? = some (some entry)) :
    g.Alive f i ↔ ∃ b, g.Reaches entry b ∧ i ∈ g.code b := by
  constructor
  · rintro ⟨other, b, isFirst, path, mem⟩
    cases first.symm.trans isFirst
    exact ⟨b, path, mem⟩
  · exact fun ⟨b, path, mem⟩ => ⟨entry, b, first, path, mem⟩

structure Prunes (func : ValueId) (g after : Graph) : Prop where
  opcode? : ∀ v, after.opcode? v = g.opcode? v
  head : (after.operandsOf func).head? = (g.operandsOf func).head?
  listed : after.listing func ⊆ g.listing func
  alive : ∀ inst, after.Alive func inst → g.Alive func inst
  kept : ∀ inst, g.Alive func inst → g.opcode? inst ≠ some .jmp → after.Alive func inst
  pruned : g.Pruned func → after.Pruned func

namespace Prunes

theorem refl (f : ValueId) (g : Graph) : Prunes f g g :=
  ⟨fun _ => rfl, rfl, List.Subset.refl _, fun _ => id, fun _ alive _ => alive, id⟩

theorem trans (first : Prunes f g mid) (second : Prunes f mid t) : Prunes f g t where
  opcode? v := (second.opcode? v).trans (first.opcode? v)
  head := second.head.trans first.head
  listed := List.Subset.trans second.listed first.listed
  alive inst alive := first.alive inst (second.alive inst alive)
  kept inst alive stays := second.kept inst (first.kept inst alive stays) (by rwa [first.opcode? inst])
  pruned old := second.pruned (first.pruned old)

/-- The blocks of the function and what control can come to are the same as before. -/
theorem of_same (wf : g.Structured f) (first : (g.operandsOf f).head? = some (some entry))
    (opcodes : ∀ v, t.opcode? v = g.opcode? v) (head : (t.operandsOf f).head? = (g.operandsOf f).head?)
    (layout : t.layout f = g.layout f) (cs : ∀ b ∈ g.layout f, t.code b = g.code b)
    (exits : ∀ b ∈ g.layout f, t.exits b = g.exits b) : Prunes f g t := by
  have s0 : entry ∈ g.layout f := mem_layout.2 (mem_of_head? first)
  have listing : t.listing f = g.listing f := by
    rw [Graph.listing, layout, flatMap_congr cs, Graph.listing]
  have alive : ∀ i, t.Alive f i ↔ g.Alive f i := by
    intro i
    rw [alive_iff first, alive_iff (head.trans first)]
    refine exists_congr fun b => ?_
    rw [reaches_congr wf s0 exits]
    exact and_congr_right fun path => by rw [cs b (path.mem_layout wf s0)]
  refine ⟨opcodes, head, fun _ mem => listing ▸ mem, fun i => (alive i).1,
    fun i old _ => (alive i).2 old, ?_⟩
  rintro ⟨other, isFirst, path⟩
  cases first.symm.trans isFirst
  refine ⟨entry, head.trans first, fun b mem => ?_⟩
  exact (reaches_congr wf s0 exits).2 (path b (layout ▸ mem))

end Prunes

section Merge
variable {home : List ValueId} {own : ValueId → Prop}

/-- A step of merging keeps the instructions that can be executed. -/
theorem MergeStep.prunes (step : MergeStep f entry home g t) : Prunes f g t := by
  have merging := step.merging
  have pruned : (g.operandsOf f).head? = some (some entry) → g.Pruned f → t.Pruned f := by
    rintro first ⟨other, isFirst, path⟩
    cases first.symm.trans isFirst
    exact ⟨entry, merging.first, fun b mem => step.reached (path b (step.layout_sublist.subset mem)) mem⟩
  cases step with
  | @removed b pre away unreached removed =>
    have cs : ∀ v, t.Reaches entry v → t.code v = g.code v := fun v path => removed.code
      (removed.mem_layout_iff.1 (removed.reaches pre.entry_mem away path).2).2
    refine ⟨removed.opcode?, merging.first.trans pre.first.symm, ?_, ?_, ?_, pruned pre.first⟩
    · intro i mem
      obtain ⟨v, inside, mem⟩ := mem_listing.1 mem
      obtain ⟨inside, other⟩ := removed.mem_layout_iff.1 inside
      exact mem_listing.2 ⟨v, inside, by rwa [removed.code other] at mem⟩
    all_goals intro i; rw [alive_iff pre.first, alive_iff merging.first]
    · rintro ⟨v, path, mem⟩
      exact ⟨v, (removed.reaches pre.entry_mem away path).1, cs v path ▸ mem⟩
    · rintro ⟨v, path, mem⟩ _
      have still := removed.reached pre.entry_mem unreached path
      exact ⟨v, still, cs v still ▸ mem⟩
  | @appended pred b jump hm =>
    have pre := hm.before
    refine ⟨hm.opcode?, merging.first.trans pre.first.symm, ?_, ?_, ?_, pruned pre.first⟩
    · intro i mem
      obtain ⟨v, inside, mem⟩ := mem_listing.1 mem
      exact mem_listing.2 (hm.origin inside mem)
    all_goals intro i; rw [alive_iff pre.first, alive_iff merging.first]
    · rintro ⟨v, path, mem⟩
      obtain ⟨was, inside⟩ := hm.reaches path
      rcases hm.mem_code (hm.mem_layout_iff.1 inside).2 mem with here | ⟨rfl, there⟩
      · exact ⟨v, was, here⟩
      · exact ⟨b, was.next hm.block_mem_exits, there⟩
    · rintro ⟨v, path, mem⟩ stays
      have notJump : i ≠ jump := fun eq => stays (eq ▸ hm.jumps)
      rcases hm.reached path with still | ⟨rfl, still⟩
      · by_cases hb : v = b
        · exact absurd hb (hm.mem_layout_iff.1 (hm.reaches still).2).2
        · exact ⟨v, still, hm.mem_code_of hb mem notJump⟩
      · exact ⟨pred, still, by rw [hm.code_pred]; exact mem_append_right _ mem⟩
  | tidied pre tidied =>
    have eq := tidied.sameFlow
    exact .of_same pre.toStructured pre.first eq.opcode? (merging.first.trans pre.first.symm) eq.layout
      (fun b _ => eq.code b) fun b _ => eq.exits pre.toStructured b

theorem MergeSteps.prunes (steps : MergeSteps f entry home g t) : Prunes f g t := by
  induction steps with
  | refl => exact .refl f g
  | tail _ step ih => exact ih.trans step.prunes

theorem Beside.prunes (beside : Beside own g t) (away : ∀ v, g.Part f v → ¬ own v) (formed : g.Structured f)
    (first : (g.operandsOf f).head? = some (some entry)) (opcodes : ∀ v, t.opcode? v = g.opcode? v) :
    Prunes f g t :=
  .of_same formed first opcodes (by rw [beside.operandsOf f (away f .self)]) (beside.layout away)
    (fun _ => beside.code away) fun _ => beside.exits away

end Merge
end Midend.Graph
