import Midend.Proofs.Graph.Access

/-! Slots and use lists agree. The agreement is an invariant of every operation of the
graph: a slot belongs to the value that lists it, is listed once, and stands in exactly
the use list of the value it points at. -/
namespace Midend.Graph
open Option
open List
variable {t g : Graph} {v user : ValueId} {dest : Option ValueId} {live : UseId → Prop} {i : Nat}

def IsSlot (g : Graph) (slot : UseId) : Prop := ∃ v, slot ∈ g.slots v

structure Tracks (g : Graph) (live : UseId → Prop) : Prop where
  nodup : ∀ v, (g.usesOf v).Nodup
  mem_usesOf : ∀ v slot, slot ∈ g.usesOf v ↔ live slot ∧ g.held slot = some v
  released : ∀ slot, ¬ live slot → g.held slot = none

structure Consistent (g : Graph) : Prop where
  owned : ∀ v slot, slot ∈ g.slots v → g.owner slot = some v
  nodup : ∀ v, (g.slots v).Nodup
  limited : ∀ v data limit, g.bare v = some data → data.operandLimit = some limit →
    data.operands.length ≤ limit
  tracked : g.Tracks g.IsSlot

theorem slots_congr (eq : t.bare v = g.bare v) : t.slots v = g.slots v := by
  rw [slots, slots, eq]

theorem isSlot_congr (eq : ∀ v, t.slots v = g.slots v) : t.IsSlot = g.IsSlot := by
  funext slot
  simp only [IsSlot, eq]

namespace Consistent
variable {g : Graph}
variable {slot : UseId} {v : ValueId}

theorem eq_of_mem (ok : g.Consistent) {w : ValueId} (left : slot ∈ g.slots v) (right : slot ∈ g.slots w) : v = w := by
  have owners := (ok.owned v slot left).symm.trans (ok.owned w slot right)
  exact Option.some.inj owners

theorem slot_lt (ok : g.Consistent) (mem : slot ∈ g.slots v) : slot.index < g.uses.size := by
  rw [← owner_isSome, ok.owned v slot mem]
  rfl

theorem isSlot_of_held (ok : g.Consistent) (h : g.held slot = some v) : g.IsSlot slot := by
  apply Classical.byContradiction
  intro unknown
  rw [ok.tracked.released slot unknown] at h
  cases h

theorem mem_usesOf (ok : g.Consistent) : slot ∈ g.usesOf v ↔ g.held slot = some v := by
  rw [ok.tracked.mem_usesOf v slot]
  exact ⟨And.right, fun h => ⟨ok.isSlot_of_held h, h⟩⟩

theorem held_lt (ok : g.Consistent) (h : g.held slot = some v) : v.index < g.values.size :=
  lt_of_mem_usesOf (ok.mem_usesOf.2 h)

theorem getUse (valid : g.Consistent) (mem : slot ∈ g.slots v) : g.getUse slot = .ok ⟨g.held slot, v⟩ :=
  getUse_of_owner (valid.owned v slot mem)

end Consistent

namespace Redirected
variable {g t : Graph} {slot : UseId} {dest : Option ValueId}

theorem slots (moved : g.Redirected t slot dest) (v : ValueId) : t.slots v = g.slots v :=
  slots_congr (moved.bare v)

private theorem tracks (moved : g.Redirected t slot dest) (tracked : g.Tracks live) (known : live slot) :
    t.Tracks live := by
  have absent : ∀ v, g.held slot ≠ some v → slot ∉ g.usesOf v := fun v apart mem =>
    apart ((tracked.mem_usesOf v slot).1 mem).2
  refine ⟨?_, ?_, ?_⟩
  · intro v
    rw [moved.usesOf v]
    split
    · exact tracked.nodup v
    next ne =>
      by_cases new : dest = some v
      · rw [if_neg (fun old => ne (old.trans new.symm)), if_pos new]
        have apart := absent v (fun old => ne (old.trans new.symm))
        rw [nodup_append]
        refine ⟨tracked.nodup v, by simp, ?_⟩
        intro a left b right equal
        rw [mem_singleton] at right
        exact apart (right ▸ equal ▸ left)
      · rw [if_neg new, append_nil]
        split
        · exact (tracked.nodup v).filter _
        · exact tracked.nodup v
  · intro v s
    rw [moved.usesOf v, moved.held s]
    by_cases eq : s = slot
    · subst eq
      rw [if_pos rfl]
      split
      next equal => rw [tracked.mem_usesOf v s, equal]
      next ne =>
        by_cases new : dest = some v
        · simp [new, known]
        · rw [if_neg new, append_nil]
          split
          · simp [new]
          next old => simp [absent v old, new]
    · rw [if_neg eq, ← tracked.mem_usesOf v s]
      split
      · rfl
      · have outside : s ∉ (if dest = some v then [slot] else []) := by
          split <;> simp [eq]
        rw [mem_append, or_iff_left outside]
        split
        · simp [eq]
        · rfl
  · intro s unknown
    rw [moved.held s, if_neg (fun eq : s = slot => unknown (eq ▸ known))]
    exact tracked.released s unknown

theorem consistent (moved : g.Redirected t slot dest) (ok : g.Consistent)
    (old : g.IsSlot slot) : t.Consistent := by
  have ls := moved.slots
  refine ⟨?_, ?_, ?_, ?_⟩
  · intro v s mem
    rw [moved.owner s]
    exact ok.owned v s (ls v ▸ mem)
  · intro v
    rw [ls v]
    exact ok.nodup v
  · intro v d lim hit
    exact ok.limited v d lim (moved.bare v ▸ hit)
  · rw [isSlot_congr ls]
    exact moved.tracks ok.tracked old

end Redirected

theorem slots_add (g : Graph) (k : Kind) (ty : Ty) (operandLimit : Option Nat) (v : ValueId) :
    (g.add k ty operandLimit).2.slots v = g.slots v := by
  simp only [slots, bare_add]
  split
  next last =>
    have missing : g.bare v = none := by simp [bare, last]
    simp [missing]
  next => rfl

theorem Consistent.add (ok : g.Consistent) (k : Kind) (ty : Ty) (operandLimit : Option Nat) :
    (g.add k ty operandLimit).2.Consistent := by
  have ls := g.slots_add k ty operandLimit
  refine ⟨?_, ?_, ?_, ?_⟩
  · intro v slot mem
    exact ok.owned v slot (ls v ▸ mem)
  · intro v
    rw [ls v]
    exact ok.nodup v
  · intro v d lim hit bounded
    rw [bare_add] at hit
    split at hit
    · cases hit
      exact Nat.zero_le lim
    · exact ok.limited v d lim hit bounded
  · rw [isSlot_congr ls]
    refine ⟨?_, ?_, ok.tracked.released⟩
    · intro v
      rw [usesOf_add]
      exact ok.tracked.nodup v
    · intro v slot
      rw [usesOf_add]
      exact ok.tracked.mem_usesOf v slot

namespace Extended
variable {g t : Graph} {user : ValueId} {dest : Option ValueId}

section
variable (grown : g.Extended t user dest)
include grown

theorem slots (v : ValueId) : t.slots v = if v = user then g.slots v ++ [⟨g.uses.size⟩] else g.slots v := by
  simp only [Graph.slots, grown.bare v]
  split
  next eq =>
    obtain ⟨d, hit⟩ := isSome_iff_exists.1 (bare_isSome.2 grown.inside)
    simp [eq, hit]
  next => rfl

theorem isSlot (slot : UseId) : t.IsSlot slot ↔ g.IsSlot slot ∨ slot = ⟨g.uses.size⟩ := by
  constructor
  · rintro ⟨v, mem⟩
    rw [grown.slots v] at mem
    split at mem
    · rcases mem_append.1 mem with old | new
      · exact .inl ⟨v, old⟩
      · exact .inr (mem_singleton.1 new)
    · exact .inl ⟨v, mem⟩
  · rintro (⟨v, mem⟩ | rfl)
    · refine ⟨v, ?_⟩
      rw [grown.slots v]
      split
      · exact mem_append_left _ mem
      · exact mem
    · exact ⟨user, by simp [grown.slots user]⟩

theorem tracks (ok : g.Consistent) : t.Tracks t.IsSlot := by
  have unlisted : ¬ g.IsSlot ⟨g.uses.size⟩ := fun ⟨_, mem⟩ =>
    Nat.lt_irrefl _ (ok.slot_lt mem)
  have absent : ∀ v, (⟨g.uses.size⟩ : UseId) ∉ g.usesOf v := fun v mem =>
    unlisted ((ok.tracked.mem_usesOf v _).1 mem).1
  have older : ∀ s : UseId, s.index = g.uses.size → s = ⟨g.uses.size⟩ := by
    rintro ⟨_⟩ rfl
    rfl
  refine ⟨?_, ?_, ?_⟩
  · intro v
    rw [grown.usesOf v]
    split
    · rw [nodup_append]
      refine ⟨ok.tracked.nodup v, by simp, ?_⟩
      intro a left b right equal
      rw [mem_singleton] at right
      exact absent v (right ▸ equal ▸ left)
    · rw [append_nil]
      exact ok.tracked.nodup v
  · intro v s
    rw [grown.usesOf v, grown.isSlot s, grown.held s]
    by_cases new : s.index = g.uses.size
    · have eq := older s new
      subst eq
      by_cases points : dest = some v
      · simp [points]
      · simp [points, absent v]
    · have other : s ≠ ⟨g.uses.size⟩ := fun eq => new (eq ▸ rfl)
      have outside : s ∉ (if dest = some v then [(⟨g.uses.size⟩ : UseId)] else []) := by
        split <;> simp [other]
      rw [mem_append, or_iff_left outside, or_iff_left other, if_neg new]
      exact ok.tracked.mem_usesOf v s
  · intro s unknown
    rw [grown.isSlot s, not_or] at unknown
    have old : s.index ≠ g.uses.size := fun new => unknown.2 (older s new)
    rw [grown.held s, if_neg old]
    exact ok.tracked.released s unknown.1

theorem consistent (ok : g.Consistent) : t.Consistent := by
  refine ⟨?_, ?_, ?_, grown.tracks ok⟩
  · intro v s mem
    rw [grown.owner s]
    rw [grown.slots v] at mem
    have old : s ∈ g.slots v → (if s.index = g.uses.size then some user else g.owner s) = some v :=
      fun isIn => by
        rw [if_neg (Nat.ne_of_lt (ok.slot_lt isIn))]
        exact ok.owned v s isIn
    split at mem
    next eq =>
      rcases mem_append.1 mem with isIn | new
      · exact old isIn
      · rw [mem_singleton.1 new, if_pos rfl, eq]
    next => exact old mem
  · intro v
    rw [grown.slots v]
    split
    · rw [nodup_append]
      refine ⟨ok.nodup v, by simp, ?_⟩
      intro a left b right equal
      rw [mem_singleton] at right
      exact Nat.lt_irrefl _ (ok.slot_lt (right ▸ equal ▸ left : ⟨g.uses.size⟩ ∈ g.slots v))
    · exact ok.nodup v
  · intro v d lim hit bounded
    rw [grown.bare v] at hit
    split at hit
    next eq =>
      obtain ⟨pre, read, rfl⟩ := map_eq_some_iff.1 hit
      have room := grown.roomy pre lim (eq ▸ read) bounded
      simpa [Nat.succ_le_iff] using room
    next => exact ok.limited v d lim hit bounded

end

end Extended

structure SameValues (g after : Graph) : Prop where
  size : after.values.size = g.values.size
  slotCount : after.uses.size = g.uses.size
  bare : ∀ v, after.bare v = g.bare v
  owner : ∀ s, after.owner s = g.owner s

namespace SameValues
variable {g mid t : Graph}

theorem refl (g : Graph) : g.SameValues g := ⟨rfl, rfl, fun _ => rfl, fun _ => rfl⟩

theorem trans (first : g.SameValues mid) (second : mid.SameValues t) : g.SameValues t :=
  ⟨second.size.trans first.size, second.slotCount.trans first.slotCount,
    fun v => (second.bare v).trans (first.bare v), fun s => (second.owner s).trans (first.owner s)⟩

theorem slots (eq : g.SameValues t) (v : ValueId) : t.slots v = g.slots v :=
  slots_congr (eq.bare v)

theorem isSlot (eq : g.SameValues t) : t.IsSlot = g.IsSlot := isSlot_congr eq.slots

end SameValues

theorem Redirected.sameValues {slot : UseId} (moved : g.Redirected t slot dest) : g.SameValues t :=
  ⟨moved.size, moved.slotCount, moved.bare, moved.owner⟩

theorem foldlM_setUse {ls : List UseId} (done : ls.foldlM (fun g slot => g.setUse slot dest) g = .ok t) :
    g.SameValues t ∧ ∀ s, t.held s = if s ∈ ls then dest else g.held s := by
  induction ls generalizing g with
  | nil =>
    have eq := pure_eq_ok.1 done
    subst eq
    exact ⟨.refl g, fun s => by simp⟩
  | cons slot tl ih =>
    obtain ⟨mid, first, done⟩ := bind_eq_ok.1 done
    have moved := setUse_redirected first
    obtain ⟨eq, held⟩ := ih done
    refine ⟨moved.sameValues.trans eq, ?_⟩
    intro s
    rw [held s, moved.held s]
    by_cases into : s ∈ tl
    · simp [into]
    · simp [into]

private theorem foldlM_setUse_tracks {ls : List UseId} (tracked : g.Tracks live) (old : ∀ slot ∈ ls, live slot)
    (done : ls.foldlM (fun g slot => g.setUse slot dest) g = .ok t) : t.Tracks live := by
  refine foldlM_keeps (P := fun graph => graph.Tracks live) ls ?_ tracked done
  intro pre slot mem next h moved
  exact (setUse_redirected moved).tracks h (old slot mem)

/-- Slots that are emptied leave the use lists, and what is left of these stays in its order. -/
private theorem foldlM_setUse_none {ls : List UseId} (tracked : g.Tracks live) (old : ∀ slot ∈ ls, live slot)
    (done : ls.foldlM (fun g slot => g.setUse slot none) g = .ok t) (v : ValueId) :
    t.usesOf v = (g.usesOf v).filter (· ∉ ls) := by
  induction ls generalizing g with
  | nil =>
    cases done
    exact (filter_eq_self.2 fun s _ => by simp).symm
  | cons slot tl ih =>
    obtain ⟨mid, first, done⟩ := bind_eq_ok.1 done
    have moved := setUse_redirected first
    have one : mid.usesOf v = (g.usesOf v).filter (· ≠ slot) := by
      have absent : g.held slot ≠ some v → (g.usesOf v).filter (· ≠ slot) = g.usesOf v := fun apart =>
        filter_eq_self.2 fun s mem => by
          simpa using fun eq : s = slot => apart (eq ▸ ((tracked.mem_usesOf v s).1 mem).2)
      rw [moved.usesOf v]
      by_cases h : g.held slot = some v
      · simp [h]
      · rw [absent h]
        simp [h]
    rw [ih (moved.tracks tracked (old slot mem_cons_self)) (fun s mem => old s (mem_cons_of_mem _ mem)) done, one,
      List.filter_filter]
    exact filter_congr fun s _ => by simp [Bool.and_comm]

theorem SameValues.consistent (eq : g.SameValues t) (ok : g.Consistent) (tracked : t.Tracks g.IsSlot) :
    t.Consistent := by
  refine ⟨?_, ?_, ?_, eq.isSlot ▸ tracked⟩
  · intro v s mem
    rw [eq.owner s]
    exact ok.owned v s (eq.slots v ▸ mem)
  · intro v
    rw [eq.slots v]
    exact ok.nodup v
  · intro v d lim hit
    exact ok.limited v d lim (eq.bare v ▸ hit)

theorem setOperand_eq_ok (done : g.setOperand user i dest = .ok t) :
    ∃ slot, (g.slots user)[i]? = some slot ∧ g.setUse slot dest = .ok t := by
  obtain ⟨d, hit, done⟩ := bind_eq_ok.1 done
  rw [slots_of_value hit]
  dsimp only at done
  split at done
  next slot mem => exact ⟨slot, mem, done⟩
  next => cases done

theorem Consistent.setOperand (valid : g.Consistent) (done : g.setOperand user i dest = .ok t) :
    t.Consistent := by
  obtain ⟨slot, mem, moved⟩ := setOperand_eq_ok done
  exact (setUse_redirected moved).consistent valid ⟨user, mem_of_getElem? mem⟩

theorem replaceBy_eq_ok {old new : ValueId} (ne : old ≠ new) (done : g.replaceBy old new = .ok t) :
    (g.usesOf old).foldlM (fun g slot => g.setUse slot (some new)) g = .ok t := by
  unfold replaceBy at done
  rw [if_neg ne] at done
  obtain ⟨d, hit, done⟩ := bind_eq_ok.1 done
  rw [usesOf_of_value hit]
  exact done

theorem Consistent.replaceBy {g t : Graph} {old new : ValueId} (valid : g.Consistent)
    (done : g.replaceBy old new = .ok t) : t.Consistent := by
  by_cases eq : old = new
  · unfold Graph.replaceBy at done
    rw [if_pos eq] at done
    cases done
    exact valid
  · have moved := replaceBy_eq_ok eq done
    have known : ∀ slot ∈ g.usesOf old, g.IsSlot slot := fun slot mem =>
      ((valid.tracked.mem_usesOf old slot).1 mem).1
    exact (foldlM_setUse moved).1.consistent valid (foldlM_setUse_tracks valid.tracked known moved)

theorem eraseSlots_eq_ok {ls kept : List UseId} (nodup : ls.Nodup)
    (done : g.eraseSlots dest ls = .ok (kept, t)) : kept = ls.filter (g.held · ≠ dest) ∧
      (ls.filter (g.held · = dest)).foldlM (fun g slot => g.setUse slot none) g = .ok t := by
  induction ls generalizing g kept with
  | nil =>
    obtain ⟨rfl, rfl⟩ := Prod.mk.inj (Except.ok.inj done)
    exact ⟨rfl, rfl⟩
  | cons slot tl ih =>
    obtain ⟨fresh, restNodup⟩ := nodup_cons.1 nodup
    obtain ⟨use, found, done⟩ := bind_eq_ok.1 done
    have h := held_of_getUse found
    split at done
    next hit =>
      obtain ⟨mid, emptied, done⟩ := bind_eq_ok.1 done
      obtain ⟨keptEq, folded⟩ := ih restNodup done
      have others : ∀ s ∈ tl, mid.held s = g.held s := fun s mem => by
        rw [(setUse_redirected emptied).held s, if_neg (fun eq : s = slot => fresh (eq ▸ mem))]
      have keep := filter_congr (q := (g.held · ≠ dest)) (p := (mid.held · ≠ dest))
        (fun s mem => by rw [others s mem])
      have drop := filter_congr (q := (g.held · = dest)) (p := (mid.held · = dest))
        (fun s mem => by rw [others s mem])
      rw [keep] at keptEq
      rw [drop] at folded
      refine ⟨by simp [h, hit, keptEq], ?_⟩
      rw [filter_cons_of_pos (by simpa using h.trans hit), foldlM_cons, emptied]
      exact folded
    next miss =>
      obtain ⟨⟨later, mid⟩, erased, done⟩ := bind_eq_ok.1 done
      obtain ⟨rfl, rfl⟩ := Prod.mk.inj (pure_eq_ok.1 done)
      obtain ⟨keptEq, folded⟩ := ih restNodup erased
      have other : g.held slot ≠ dest := fun eq => miss (h.symm.trans eq)
      exact ⟨by simp [other, keptEq], by simpa [other] using folded⟩

structure Removed (g after : Graph) (user : ValueId) (gone : UseId → Prop) [DecidablePred gone] :
    Prop where
  size : after.values.size = g.values.size
  slotCount : after.uses.size = g.uses.size
  inside : user.index < g.values.size
  owner : ∀ s, after.owner s = g.owner s
  bare : ∀ v, after.bare v =
    if v = user then
      (g.bare v).map fun data => { data with operands := data.operands.filter (¬ gone ·) }
    else g.bare v
  held : ∀ s, after.held s = if s ∈ g.slots user ∧ gone s then none else g.held s
  usesOf : ∀ live : UseId → Prop, g.Tracks live → (∀ s ∈ g.slots user, live s) → ∀ v,
    after.usesOf v = (g.usesOf v).filter fun s => ¬ (s ∈ g.slots user ∧ gone s)

namespace Removed
variable {g t : Graph} {user : ValueId} {gone : UseId → Prop} [DecidablePred gone]

theorem slots (removed : g.Removed t user gone) (v : ValueId) :
    t.slots v = if v = user then (g.slots v).filter (¬ gone ·) else g.slots v := by
  simp only [Graph.slots, removed.bare v]
  split
  next eq =>
    cases g.bare v with
    | none => rfl
    | some d => rfl
  next => rfl

theorem tracks (removed : g.Removed t user gone) (tracked : g.Tracks live) (old : ∀ s ∈ g.slots user, live s) :
    t.Tracks live := by
  have lists := removed.usesOf live tracked old
  refine ⟨fun v => lists v ▸ (tracked.nodup v).filter _, ?_, ?_⟩
  · intro v s
    rw [lists v, mem_filter, tracked.mem_usesOf v s, removed.held s]
    split
    next emptied => simp [emptied]
    next kept => simp [kept]
  · intro s unknown
    rw [removed.held s]
    split
    · rfl
    · exact tracked.released s unknown

theorem sublist (removed : g.Removed t user gone) (v : ValueId) : (t.slots v).Sublist (g.slots v) := by
  rw [removed.slots v]
  split
  · exact filter_sublist
  · exact List.Sublist.refl _

theorem consistent (removed : g.Removed t user gone) (ok : g.Consistent) : t.Consistent := by
  have tracked := removed.tracks ok.tracked fun s mem => ⟨user, mem⟩
  -- A slot that is listed no longer was emptied, and an empty slot is in no use list.
  have lost : ∀ s, g.IsSlot s → ¬ t.IsSlot s → t.held s = none := by
    rintro s ⟨v, mem⟩ unlisted
    have dropped : s ∉ t.slots v := fun isIn => unlisted ⟨v, isIn⟩
    rw [removed.slots v] at dropped
    split at dropped
    next eq =>
      subst eq
      have hit : gone s := by simpa [mem] using dropped
      rw [removed.held s, if_pos ⟨mem, hit⟩]
    next => exact absurd mem dropped
  have fewer : ∀ s, t.IsSlot s → g.IsSlot s := fun s ⟨v, isIn⟩ =>
    ⟨v, (removed.sublist v).subset isIn⟩
  refine ⟨?_, ?_, ?_, tracked.nodup, ?_, ?_⟩
  · intro v s mem
    rw [removed.owner s]
    exact ok.owned v s ((removed.sublist v).subset mem)
  · intro v
    exact (removed.sublist v).nodup (ok.nodup v)
  · intro v d lim found bounded
    rw [removed.bare v] at found
    split at found
    · obtain ⟨pre, read, rfl⟩ := map_eq_some_iff.1 found
      exact Nat.le_trans (length_filter_le _ _) (ok.limited v pre lim read bounded)
    · exact ok.limited v d lim found bounded
  · intro v s
    rw [tracked.mem_usesOf v s]
    constructor
    · rintro ⟨live, h⟩
      refine ⟨?_, h⟩
      apply Classical.byContradiction
      intro unlisted
      rw [lost s live unlisted] at h
      cases h
    · rintro ⟨isIn, h⟩
      exact ⟨fewer s isIn, h⟩
  · intro s unlisted
    by_cases live : g.IsSlot s
    · exact lost s live unlisted
    · exact tracked.released s live

end Removed

private theorem modify_operands {f : List UseId → List UseId}
    (done : g.modify user (fun v => { v with operands := f v.operands }) = .ok t) :
    t.values.size = g.values.size ∧ t.uses = g.uses ∧ user.index < g.values.size ∧
      (∀ v, t.usesOf v = g.usesOf v) ∧ ∀ v, t.bare v =
        if v = user then (g.bare v).map fun d => { d with operands := f d.operands }
        else g.bare v := by
  obtain ⟨into, uses, size, values⟩ := modify_eq_ok done
  refine ⟨size, uses, into, ?_, ?_⟩
  · intro v
    unfold usesOf
    rw [values v]
    split
    · rw [Option.map_map]
      rfl
    · rfl
  · intro v
    unfold bare
    rw [values v]
    split
    · rw [Option.map_map, Option.map_map]
      rfl
    · rfl

theorem tracks_congr (uses : t.uses = g.uses) (lists : ∀ v, t.usesOf v = g.usesOf v) (tracked : g.Tracks live) :
    t.Tracks live := by
  have held : ∀ s, t.held s = g.held s := fun s => by rw [held, held, uses]
  refine ⟨?_, ?_, ?_⟩
  · intro v
    rw [lists v]
    exact tracked.nodup v
  · intro v s
    rw [lists v, held s]
    exact tracked.mem_usesOf v s
  · intro s unknown
    rw [held s]
    exact tracked.released s unknown

theorem removeValue_removed (nodup : (g.slots user).Nodup) (done : g.removeValue user dest = .ok t) :
    g.Removed t user (g.held · = dest) := by
  obtain ⟨d, hit, done⟩ := bind_eq_ok.1 done
  obtain ⟨⟨kept, mid⟩, erased, done⟩ := bind_eq_ok.1 done
  rw [← slots_of_value hit] at erased
  obtain ⟨rfl, folded⟩ := eraseSlots_eq_ok nodup erased
  obtain ⟨eq, held⟩ := foldlM_setUse folded
  obtain ⟨size, uses, into, lists, bares⟩ :=
    modify_operands (f := fun _ => (g.slots user).filter (g.held · ≠ dest)) done
  refine ⟨size.trans eq.size, (congrArg Array.size uses).trans eq.slotCount, eq.size ▸ into, ?_, ?_, ?_, ?_⟩
  · intro s
    rw [← eq.owner s, owner, owner, uses]
  · intro v
    rw [bares v, eq.bare v]
    split
    next equal => rw [equal, bare_eq_some hit]; simp [slots_of_value hit]
    next => rfl
  · intro s
    have unchanged : t.held s = mid.held s := by rw [Graph.held, Graph.held, uses]
    rw [unchanged, held s]
    simp [mem_filter]
  · intro live tracked old v
    rw [lists v, foldlM_setUse_none tracked (fun s mem => old s (mem_filter.1 mem).1) folded v]
    exact filter_congr fun s _ => by simp [mem_filter]

theorem dropOperands_removed (done : g.dropOperands user = .ok t) : g.Removed t user (fun _ => True) := by
  obtain ⟨d, hit, done⟩ := bind_eq_ok.1 done
  obtain ⟨mid, emptied, folded⟩ := bind_eq_ok.1 done
  rw [← slots_of_value hit] at folded
  obtain ⟨size, uses, into, lists, bares⟩ := modify_operands (f := fun _ => []) emptied
  obtain ⟨eq, held⟩ := foldlM_setUse folded
  refine ⟨eq.size.trans size, eq.slotCount.trans (congrArg Array.size uses), into, ?_, ?_, ?_, ?_⟩
  · intro s
    rw [eq.owner s, owner, owner, uses]
  · intro v
    have all : ∀ ls : List UseId, ls.filter (fun _ => decide ¬ True) = [] := by simp
    simp only [eq.bare v, bares v, all]
  · intro s
    rw [held s]
    simp only [and_true]
    rw [Graph.held, Graph.held, uses]
  · intro live tracked old v
    rw [foldlM_setUse_none (tracks_congr uses lists tracked) old folded v, lists v]
    exact filter_congr fun s _ => by simp

theorem Consistent.removeValue (valid : g.Consistent) (done : g.removeValue user dest = .ok t) :
    t.Consistent :=
  (removeValue_removed (valid.nodup user) done).consistent valid

theorem Consistent.removeFromUsers (valid : g.Consistent) (done : g.removeFromUsers v = .ok t) : t.Consistent := by
  obtain ⟨users, _, done⟩ := bind_eq_ok.1 done
  refine foldlM_keeps users ?_ valid done
  intro pre user _ next h removed
  exact h.removeValue removed

theorem Consistent.dropOperands (valid : g.Consistent) (done : g.dropOperands user = .ok t) : t.Consistent :=
  (dropOperands_removed done).consistent valid

theorem Consistent.setOperands {dests : List (Option ValueId)} (valid : g.Consistent)
    (done : g.setOperands user dests = .ok t) : t.Consistent := by
  refine foldlM_keeps _ ?_ valid done
  intro pre dest _ next h moved
  exact h.setOperand moved

theorem Consistent.moveBlock {f b : ValueId} {pos : Nat} (valid : g.Consistent)
    (done : g.moveBlock f b pos = .ok t) : t.Consistent := by
  obtain ⟨bs, _, done⟩ := bind_eq_ok.1 done
  dsimp only at done
  split at done
  · cases done
    exact valid
  · exact valid.setOperands done

theorem Consistent.empty : ({} : Graph).Consistent := by
  refine ⟨?_, ?_, ?_, ?_, ?_, ?_⟩
  · intro v slot mem
    simp [slots, bare] at mem
  · intro v
    simp [slots, bare]
  · intro v d limit hit
    simp [bare] at hit
  · intro v
    simp [usesOf]
  · intro v slot
    simp [usesOf, held]
  · intro slot _
    simp [held]

end Midend.Graph
