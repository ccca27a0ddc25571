import Midend.Graph.Check
import Midend.Proofs.Graph.Consistent
import Mathlib.Data.List.Nodup

/-! Every graph that the operations can build has agreeing slots and use lists, and the
check of them finds nothing. -/
namespace Midend.Graph
open List
variable {g : Graph}

inductive Step (g : Graph) : Graph → Prop
  | add (kind : Kind) (ty : Ty) (operandLimit : Option Nat) : Step g (g.add kind ty operandLimit).2
  | addOperand {user : ValueId} {target : Option ValueId} {slot : UseId} {after : Graph}
      (done : g.addOperand user target = .ok (slot, after)) : Step g after
  | setOperand {user : ValueId} {index : Nat} {target : Option ValueId} {after : Graph}
      (done : g.setOperand user index target = .ok after) : Step g after
  | setUse {slot : UseId} {use : Use} {owner : Value} {target : Option ValueId} {after : Graph}
      (read : g.getUse slot = .ok use) (owned : g.value use.user = .ok owner)
      (listed : slot ∈ owner.operands) (done : g.setUse slot target = .ok after) : Step g after
  | replaceBy {old new : ValueId} {after : Graph} (done : g.replaceBy old new = .ok after) :
      Step g after
  | removeValue {user : ValueId} {target : Option ValueId} {after : Graph}
      (done : g.removeValue user target = .ok after) : Step g after
  | removeFromUsers {v : ValueId} {after : Graph} (done : g.removeFromUsers v = .ok after) :
      Step g after
  | dropOperands {user : ValueId} {after : Graph} (done : g.dropOperands user = .ok after) :
      Step g after
  | moveBlock {func block : ValueId} {position : Nat} {after : Graph}
      (done : g.moveBlock func block position = .ok after) : Step g after

inductive Built : Graph → Prop
  | empty : Built {}
  | step {g after : Graph} (built : Built g) (next : Step g after) : Built after

theorem Step.consistent {t : Graph} (step : Step g t) (ok : g.Consistent) : t.Consistent := by
  cases step with
  | add k ty operandLimit => exact ok.add k ty operandLimit
  | addOperand done => exact (addOperand_extended done).2.consistent ok
  | setOperand done => exact ok.setOperand done
  | @setUse slot use owner dest _ read owned mem done =>
    exact (setUse_redirected done).consistent ok ⟨use.user, slots_of_value owned ▸ mem⟩
  | replaceBy done => exact ok.replaceBy done
  | removeValue done => exact ok.removeValue done
  | removeFromUsers done => exact ok.removeFromUsers done
  | dropOperands done => exact ok.dropOperands done
  | moveBlock done => exact ok.moveBlock done

theorem Built.consistent (built : g.Built) : g.Consistent := by
  induction built with
  | empty => exact .empty
  | step _ next ih => exact next.consistent ih

private theorem findSomeM?_eq_none {ε α β : Type} {find : α → Except ε (Option β)} {items : List α}
    (nothing : ∀ item ∈ items, find item = .ok none) : items.findSomeM? find = .ok none := by
  induction items with
  | nil => rfl
  | cons item items ih =>
    rw [List.findSomeM?, nothing item (mem_cons_self ..)]
    exact ih fun other mem => nothing other (mem_cons_of_mem _ mem)

namespace Consistent
variable {g : Graph}
variable {slot : UseId} {v : ValueId}

theorem checkSlot (valid : g.Consistent) (mem : slot ∈ g.slots v) : g.checkSlot v slot = .ok none := by
  unfold Graph.checkSlot
  rw [valid.getUse mem]
  simp only [bind, Except.bind, ne_eq, not_true_eq_false, if_false]
  cases h : g.held slot with
  | none => rfl
  | some dest =>
    have isIn := (valid.tracked.mem_usesOf dest slot).2 ⟨⟨v, mem⟩, h⟩
    obtain ⟨d, hit⟩ := value_of_lt (lt_of_mem_usesOf isIn)
    rw [usesOf_of_value hit] at isIn
    simp [hit, isIn, pure, Except.pure]

theorem checkUse (valid : g.Consistent) (mem : slot ∈ g.usesOf v) : g.checkUse v slot = .ok none := by
  obtain ⟨⟨user, isIn⟩, h⟩ := (valid.tracked.mem_usesOf v slot).1 mem
  obtain ⟨d, hit⟩ := value_of_lt (lt_of_mem_slots isIn)
  unfold Graph.checkUse
  rw [valid.getUse isIn]
  simp only [bind, Except.bind, h, ne_eq, not_true_eq_false, if_false, hit]
  rw [slots_of_value hit] at isIn
  simp [isIn, pure, Except.pure]

theorem check (valid : g.Consistent) : g.check = .ok none := by
  refine findSomeM?_eq_none ?_
  intro i into
  obtain ⟨d, hit⟩ := value_of_lt (v := ⟨i⟩) (mem_range.1 into)
  have ls : d.operands.findSomeM? (g.checkSlot ⟨i⟩) = .ok none :=
    findSomeM?_eq_none fun slot mem => valid.checkSlot (slots_of_value hit ▸ mem)
  have uses : d.uses.findSomeM? (g.checkUse ⟨i⟩) = .ok none :=
    findSomeM?_eq_none fun slot mem => valid.checkUse (usesOf_of_value hit ▸ mem)
  unfold checkValue
  rw [hit]
  simp only [bind, Except.bind, ls, uses]

private theorem nodup_all (ok : g.Consistent) : (g.values.toList.flatMap (·.operands)).Nodup := by
  have read : ∀ index (into : index < g.values.toList.length),
      g.slots ⟨index⟩ = (g.values.toList[index]).operands := by
    intro index into
    rw [Array.length_toList] at into
    exact slots_of_value (value_eq_ok_iff.2 (by simp [into]))
  rw [nodup_flatMap]
  refine ⟨?_, ?_⟩
  · intro d mem
    obtain ⟨index, into, rfl⟩ := mem_iff_getElem.1 mem
    rw [← read index into]
    exact ok.nodup ⟨index⟩
  · rw [pairwise_iff_getElem]
    intro i j left right pre slot first second
    dsimp only at first second
    rw [← read i left] at first
    rw [← read j right] at second
    have eq : i = j := congrArg ValueId.index (ok.eq_of_mem first second)
    omega

end Consistent

/-- In every graph that the operations build, the slots that values list and the use lists
are two views of one relation, and the check of them finds nothing. -/
theorem built_slots_iff_uses {g : Graph} (built : g.Built) :
    (∀ v data slot, g.value v = .ok data → slot ∈ data.operands →
      ∃ use, g.getUse slot = .ok use ∧ use.user = v) ∧
    (g.values.toList.flatMap (·.operands)).Nodup ∧
    (∀ w data, g.value w = .ok data → data.uses.Nodup ∧ ∀ slot, slot ∈ data.uses ↔
      ∃ use owner, g.getUse slot = .ok use ∧ use.value = some w ∧
        g.value use.user = .ok owner ∧ slot ∈ owner.operands) ∧
    (∀ slot use, g.getUse slot = .ok use →
      (∀ v data, g.value v = .ok data → slot ∉ data.operands) → use.value = none) ∧
    (∀ v data limit, g.value v = .ok data → data.operandLimit = some limit →
      data.operands.length ≤ limit) ∧
    g.check = .ok none := by
  have valid := built.consistent
  refine ⟨?_, valid.nodup_all, ?_, ?_, ?_, valid.check⟩
  · intro v data slot found listed
    exact ⟨_, valid.getUse (slots_of_value found ▸ listed), rfl⟩
  · intro w data found
    rw [← usesOf_of_value found]
    refine ⟨valid.tracked.nodup w, ?_⟩
    intro slot
    rw [valid.tracked.mem_usesOf w slot]
    constructor
    · rintro ⟨⟨v, listed⟩, holds⟩
      obtain ⟨owner, owned⟩ := value_of_lt (lt_of_mem_slots listed)
      exact ⟨_, owner, valid.getUse listed, holds, owned, slots_of_value owned ▸ listed⟩
    · rintro ⟨use, owner, read, holds, owned, listed⟩
      exact ⟨⟨use.user, slots_of_value owned ▸ listed⟩, (held_of_getUse read).trans holds⟩
  · intro slot use read unlisted
    rw [← held_of_getUse read]
    refine valid.tracked.released slot ?_
    rintro ⟨v, listed⟩
    obtain ⟨data, found⟩ := value_of_lt (lt_of_mem_slots listed)
    exact unlisted v data found (slots_of_value found ▸ listed)
  · intro v data limit found bounded
    exact valid.limited v { data with uses := [] } limit (bare_eq_some found) bounded

theorem Built.twoValues : Built (({} : Graph).add (.constInt 0) .int32 none |>.2.add (.constInt 1) .int32 none).2 :=
  (Built.empty.step (.add (.constInt 0) .int32 none)).step (.add (.constInt 1) .int32 none)

/-- A value that refers to another one and to itself, and whose references are redirected. -/
theorem built_slots_iff_uses_replaced : ∃ g : Graph, g.Built ∧ g.usesOf ⟨1⟩ = [⟨1⟩, ⟨0⟩] ∧
    (g.values.toList.flatMap (·.operands)).Nodup ∧ g.check = .ok none := by
  have itself := Built.twoValues.step (@Step.addOperand _ ⟨0⟩ (some ⟨0⟩) _ _ rfl)
  have other := itself.step (@Step.addOperand _ ⟨0⟩ (some ⟨1⟩) _ _ rfl)
  have built := other.step (@Step.replaceBy _ ⟨0⟩ ⟨1⟩ _ rfl)
  obtain ⟨_, nodup, _, _, _, checked⟩ := built_slots_iff_uses built
  exact ⟨_, built, rfl, nodup, checked⟩

end Midend.Graph
