import Midend.Proofs.Graph.Grow

/-! What building code leaves of an older graph. Only slots that are new are pointed anywhere, so an
older use list grows at its end, and shrinks there again when what was built is taken out. -/
namespace Midend
open List

namespace Graph

structure Accrued (base g : Graph) : Prop where
  size : base.values.size ≤ g.values.size
  slotCount : base.uses.size ≤ g.uses.size
  bare : ∀ v data, base.bare v = some data →
    ∃ kind more, g.bare v = some { data with kind, operands := data.operands ++ more }
  usesOf : ∀ v, v.index < base.values.size →
    ∃ more, g.usesOf v = base.usesOf v ++ more ∧ ∀ slot ∈ more, base.uses.size ≤ slot.index
  owner : ∀ slot : UseId, slot.index < base.uses.size → g.owner slot = base.owner slot
  held : ∀ slot : UseId, slot.index < base.uses.size → g.held slot = base.held slot
  slots : ∀ v, base.values.size ≤ v.index → ∀ slot ∈ g.slots v, base.uses.size ≤ slot.index

variable {base g t : Graph}

theorem Accrued.refl (g : Graph) : g.Accrued g := by
  refine ⟨Nat.le_refl _, Nat.le_refl _, ?_, ?_, fun _ _ => rfl, fun _ _ => rfl, ?_⟩
  · intro v d hit
    exact ⟨d.kind, [], by simp [hit]⟩
  · intro v _
    exact ⟨[], by simp, by simp⟩
  · intro v above slot mem
    exact absurd (lt_of_mem_slots mem) (Nat.not_lt_of_le above)

private theorem Consistent.use_lt (ok : g.Consistent) {v : ValueId} {slot : UseId} (mem : slot ∈ g.usesOf v) :
    slot.index < g.uses.size := by
  obtain ⟨⟨user, isIn⟩, _⟩ := (ok.tracked.mem_usesOf v slot).1 mem
  exact ok.slot_lt isIn

namespace Accrued
variable {dest : Option ValueId} {v user : ValueId}

theorem redirected {slot : UseId} (acc : base.Accrued g) (ok : base.Consistent)
    (new : base.uses.size ≤ slot.index) (moved : g.Redirected t slot dest) : base.Accrued t := by
  have other : ∀ s : UseId, s.index < base.uses.size → s ≠ slot := by
    intro s old eq
    exact absurd (eq ▸ old) (Nat.not_lt_of_le new)
  refine ⟨moved.size ▸ acc.size, moved.slotCount ▸ acc.slotCount, ?_, ?_, ?_, ?_, ?_⟩
  · simpa only [moved.bare] using acc.bare
  · intro v old
    obtain ⟨more, uses, newer⟩ := acc.usesOf v old
    rw [moved.usesOf v]
    split
    · exact ⟨more, uses, newer⟩
    · refine ⟨(if g.held slot = some v then more.filter (· ≠ slot) else more) ++ if dest = some v then [slot] else [], ?_, ?_⟩
      · have kept : (base.usesOf v).filter (· ≠ slot) = base.usesOf v := by
          rw [filter_eq_self]
          intro s mem
          simpa using other s (ok.use_lt mem)
        split <;> simp only [uses, filter_append, kept, append_assoc]
      · intro s mem
        rcases mem_append.1 mem with early | late
        · split at early
          · exact newer s (mem_filter.1 early).1
          · exact newer s early
        · split at late
          · exact mem_singleton.1 late ▸ new
          · cases late
  · intro s old
    rw [moved.owner s]
    exact acc.owner s old
  · intro s old
    rw [moved.held s, if_neg (other s old)]
    exact acc.held s old
  · simpa only [moved.slots] using acc.slots

private theorem redirectedEach {ls : List UseId} (acc : base.Accrued g) (valid : base.Consistent)
    (new : ∀ slot ∈ ls, base.uses.size ≤ slot.index)
    (done : ls.foldlM (fun g slot => g.setUse slot dest) g = .ok t) : base.Accrued t := by
  refine foldlM_keeps ls ?_ acc done
  intro pre slot mem next h moved
  exact h.redirected valid (new slot mem) (setUse_redirected moved)

theorem add (acc : base.Accrued g) (k : Kind) (ty : Ty) (lim : Option Nat) :
    base.Accrued (g.add k ty lim).2 := by
  have ne : ∀ v : ValueId, v.index < base.values.size → v.index ≠ g.values.size := by
    intro v old eq
    have size := acc.size
    omega
  refine ⟨?_, acc.slotCount, ?_, ?_, acc.owner, acc.held, ?_⟩
  · rw [size_add]
    exact Nat.le_succ_of_le acc.size
  · intro v d hit
    rw [bare_add, if_neg (ne v (bare_isSome.1 (by rw [hit]; rfl)))]
    exact acc.bare v d hit
  · intro v old
    rw [usesOf_add]
    exact acc.usesOf v old
  · intro v above
    rw [slots_add]
    exact acc.slots v above

theorem modify {f : Value → Value} (acc : base.Accrued g) (new : base.values.size ≤ v.index)
    (done : g.modify v f = .ok t) (ops : ∀ d, g.value v = .ok d → (f d).operands ⊆ d.operands) :
    base.Accrued t := by
  obtain ⟨_, sameUses, size, values⟩ := modify_eq_ok done
  have old : ∀ w : ValueId, w.index < base.values.size → t.values[w.index]? = g.values[w.index]? := by
    intro w into
    rw [values w, if_neg]
    rintro rfl
    exact absurd into (Nat.not_lt_of_le new)
  refine ⟨size ▸ acc.size, sameUses ▸ acc.slotCount, ?_, ?_, ?_, ?_, ?_⟩
  · intro w d hit
    rw [Graph.bare, old w (bare_isSome.1 (by rw [hit]; rfl))]
    exact acc.bare w d hit
  · intro w into
    rw [Graph.usesOf, old w into]
    exact acc.usesOf w into
  · simpa only [Graph.owner, sameUses] using acc.owner
  · simpa only [Graph.held, sameUses] using acc.held
  · intro w above slot mem
    refine acc.slots w above slot ?_
    simp only [Graph.slots, Graph.bare, values w] at mem ⊢
    split at mem
    next eq =>
      cases hit : g.values[w.index]? with
      | none => simp [hit] at mem
      | some d =>
        simp only [hit, Option.map_some, Option.getD_some] at mem ⊢
        exact ops d (value_eq_ok_iff.2 (eq ▸ hit)) mem
    next => exact mem

theorem setKind {v : ValueId} {kind : Kind} (acc : base.Accrued g)
    (done : g.setKind v kind = .ok t) : base.Accrued t := by
  obtain ⟨_, sameUses, size, values⟩ := modify_eq_ok done
  have bares : ∀ w, t.bare w = if w = v then (g.bare w).map fun d => { d with kind } else g.bare w := by
    intro w
    simp only [Graph.bare, values w]
    split
    · simp only [Option.map_map]
      rfl
    · rfl
  have uses : ∀ w, t.usesOf w = g.usesOf w := by
    intro w
    simp only [Graph.usesOf, values w]
    split
    · simp only [Option.map_map]
      rfl
    · rfl
  refine ⟨size ▸ acc.size, sameUses ▸ acc.slotCount, ?_, ?_, ?_, ?_, ?_⟩
  · intro w d hit
    obtain ⟨other, more, now⟩ := acc.bare w d hit
    rw [bares w, now]
    split
    · exact ⟨kind, more, rfl⟩
    · exact ⟨other, more, rfl⟩
  · simpa only [uses] using acc.usesOf
  · simpa only [Graph.owner, sameUses] using acc.owner
  · simpa only [Graph.held, sameUses] using acc.held
  · intro w above slot mem
    apply acc.slots w above slot
    simp only [Graph.slots, bares w] at mem ⊢
    split at mem
    · simpa only [Option.map_map, Function.comp_def] using mem
    · exact mem

theorem addOperand {user dest : ValueId} {slot : UseId} (acc : base.Accrued g)
    (done : g.addOperand user (some dest) = .ok (slot, t)) : base.Accrued t := by
  obtain ⟨_, grown⟩ := addOperand_extended done
  have older : ∀ s : UseId, s.index < base.uses.size → s.index ≠ g.uses.size := by
    intro s old eq
    have size := acc.slotCount
    omega
  refine ⟨grown.size ▸ acc.size, ?_, ?_, ?_, ?_, ?_, ?_⟩
  · rw [grown.slotCount]
    exact Nat.le_succ_of_le acc.slotCount
  · intro v d hit
    obtain ⟨k, more, now⟩ := acc.bare v d hit
    rw [grown.bare v, now]
    split
    · exact ⟨k, more ++ [⟨g.uses.size⟩], by simp⟩
    · exact ⟨k, more, rfl⟩
  · intro v old
    obtain ⟨more, uses, newer⟩ := acc.usesOf v old
    refine ⟨more ++ if some dest = some v then [⟨g.uses.size⟩] else [], ?_, ?_⟩
    · rw [grown.usesOf v, uses, append_assoc]
    · intro s mem
      rcases mem_append.1 mem with early | late
      · exact newer s early
      · split at late
        · exact mem_singleton.1 late ▸ acc.slotCount
        · cases late
  · intro s old
    rw [grown.owner s, if_neg (older s old)]
    exact acc.owner s old
  · intro s old
    rw [grown.held s, if_neg (older s old)]
    exact acc.held s old
  · intro v above s mem
    rw [grown.slots v] at mem
    split at mem
    · rcases mem_append.1 mem with early | late
      · exact acc.slots v above s early
      · exact mem_singleton.1 late ▸ acc.slotCount
    · exact acc.slots v above s mem

theorem addAt {k : Kind} {lim : Option Nat} {ty : Ty} {location : Option Location} (acc : base.Accrued g)
    (done : (g.add k ty lim).2.modify (g.add k ty lim).1 (fun d => { d with location }) = .ok t) :
    base.Accrued t := by
  apply (acc.add k ty lim).modify acc.size done
  exact fun _ _ => List.Subset.refl _

theorem setOperand {i : Nat} (acc : base.Accrued g) (valid : base.Consistent)
    (new : base.values.size ≤ user.index) (done : g.setOperand user i dest = .ok t) : base.Accrued t := by
  obtain ⟨slot, isIn, moved⟩ := setOperand_eq_ok done
  have mem := mem_of_getElem? isIn
  exact acc.redirected valid (acc.slots user new slot mem) (setUse_redirected moved)

theorem dropOperands (acc : base.Accrued g) (valid : base.Consistent) (new : base.values.size ≤ user.index)
    (done : g.dropOperands user = .ok t) : base.Accrued t := by
  obtain ⟨d, hit, run⟩ := bind_eq_ok.1 done
  obtain ⟨mid, emptied, folded⟩ := bind_eq_ok.1 run
  have between : base.Accrued mid :=
    acc.modify new emptied (fun _ _ => nil_subset _)
  apply between.redirectedEach valid _ folded
  intro slot mem
  exact acc.slots user new slot (slots_of_value hit ▸ mem)

theorem removeValue (acc : base.Accrued g) (valid : base.Consistent) (nodup : (g.slots user).Nodup)
    (new : base.values.size ≤ user.index) (done : g.removeValue user dest = .ok t) : base.Accrued t := by
  obtain ⟨d, hit, run⟩ := bind_eq_ok.1 done
  obtain ⟨⟨kept, mid⟩, erased, isIn⟩ := bind_eq_ok.1 run
  rw [← slots_of_value hit] at erased
  obtain ⟨rfl, folded⟩ := eraseSlots_eq_ok nodup erased
  have between : base.Accrued mid := by
    apply acc.redirectedEach valid _ folded
    intro slot mem
    exact acc.slots user new slot (mem_filter.1 mem).1
  apply between.modify new isIn
  intro other isOther
  rw [← slots_of_value isOther, (foldlM_setUse folded).1.slots]
  exact filter_subset_self _

theorem removeFromUsers (acc : base.Accrued g) (valid : base.Consistent) (consistent : g.Consistent)
    (into : v.index < g.values.size) (new : ∀ user, some v ∈ g.operandsOf user → base.values.size ≤ user.index)
    (done : g.removeFromUsers v = .ok t) : base.Accrued t := by
  obtain ⟨users, read, folded⟩ := bind_eq_ok.1 done
  obtain ⟨hit, isFound, isUser⟩ := consistent.users into
  cases isFound.symm.trans read
  have old : ∀ user ∈ users, base.values.size ≤ user.index := fun user mem => new user ((isUser user).1 mem)
  have kept : t.Consistent ∧ base.Accrued t := by
    refine foldlM_keeps (P := fun g => g.Consistent ∧ base.Accrued g) users ?_ ⟨consistent, acc⟩ folded
    intro pre user mem next h gone
    exact ⟨h.1.removeValue gone, h.2.removeValue valid (h.1.nodup user) (old user mem) gone⟩
  exact kept.2

end Accrued

end Graph
end Midend
