import Midend.Proofs.Module.Likeness
import Midend.Proofs.Module.Skeleton

/-! Graphs that differ in a stretch of values. The first one has it and the second one does not, so
what comes after it has smaller numbers in the second one. -/
namespace Midend
open List

def ValueId.past (start length : Nat) (v : ValueId) : ValueId :=
  if v.index < start then v else ⟨v.index + length⟩

namespace ValueId
variable {s0 length : Nat} {v : ValueId}

theorem past_of_lt (old : v.index < s0) : v.past s0 length = v := if_pos old

private theorem past_of_le (new : s0 ≤ v.index) : v.past s0 length = ⟨v.index + length⟩ :=
  if_neg (Nat.not_lt_of_le new)

private theorem past_injective (s0 length : Nat) : (past s0 length).Injective := by
  intro v w eq
  obtain ⟨i⟩ := v
  obtain ⟨j⟩ := w
  simp only [past] at eq
  split at eq <;> split at eq <;> simp only [ValueId.mk.injEq] at eq ⊢ <;> omega

private theorem past_lt {size : Nat} (above : s0 ≤ size) : (v.past s0 length).index < size + length ↔ v.index < size := by
  rw [past]
  split
  next old => omega
  next new => exact Nat.add_lt_add_iff_right

theorem map_past {values : List ValueId} (old : ∀ v ∈ values, v.index < s0) :
    values.map (past s0 length) = values := by
  rw [map_congr_left fun v mem => past_of_lt (old v mem), map_id']

end ValueId

private theorem Kind.rename_past {k : Kind} {s0 length : Nat} (old : ∀ v ∈ k.values, v.index < s0) :
    k.rename (ValueId.past s0 length) = k := by
  cases k with
  | function d =>
    obtain ⟨n, args⟩ := d
    have sameArgs : args.map (ValueId.past s0 length) = args := ValueId.map_past old
    simp only [Kind.rename, sameArgs]
  | block d =>
    obtain ⟨n, insts, preds, succs, parent⟩ := d
    simp only [Kind.values, mem_cons, mem_append, or_imp, forall_and, forall_eq] at old
    obtain ⟨isParent, ⟨isInst, isPred⟩, isSucc⟩ := old
    simp only [Kind.rename, Block.rename, ValueId.map_past isInst, ValueId.map_past isPred,
      ValueId.map_past isSucc, ValueId.past_of_lt isParent]
  | inst d =>
    obtain ⟨opcode, parent, attr⟩ := d
    simp only [Kind.rename, ValueId.past_of_lt (old parent (mem_singleton.2 rfl))]
  | _ => rfl

namespace Graph

structure Shifted (start length : Nat) (g g' : Graph) : Prop where
  consistent : g.Consistent ∧ g'.Consistent
  size : g.values.size = g'.values.size + length
  above : start ≤ g'.values.size
  kind? : ∀ v, g.kind? (v.past start length) = (g'.kind? v).map (Kind.rename (ValueId.past start length))
  ty? : ∀ v, g.ty? (v.past start length) = g'.ty? v
  limit? : ∀ v, g.limit? (v.past start length) = g'.limit? v
  operandsOf : ∀ v, g.operandsOf (v.past start length) =
    (g'.operandsOf v).map (Option.map (ValueId.past start length))

namespace Shifted
variable {s0 length : Nat} {g g' t after' : Graph}
variable {v : ValueId} {loc : Option Location}

theorem of_framed {base : Graph} (framed : base.Framed g) (ok : base.Consistent) (valid' : g.Consistent)
    (contained : ∀ v k, base.kind? v = some k → ∀ w ∈ k.values, w.index < base.values.size)
    (limits : ∀ v, v.index < base.values.size → g.limit? v = base.limit? v) :
    Shifted base.values.size (g.values.size - base.values.size) g base := by
  have outside : ∀ v : ValueId, base.values.size ≤ v.index →
      g.values.size ≤ (v.past base.values.size (g.values.size - base.values.size)).index := by
    intro v new
    rw [ValueId.past_of_le new]
    show g.values.size ≤ v.index + (g.values.size - base.values.size)
    omega
  refine ⟨⟨valid', ok⟩, ?_, Nat.le_refl _, ?_, ?_, ?_, ?_⟩
  · have size := framed.size
    omega
  · intro v
    rcases Nat.lt_or_ge v.index base.values.size with old | new
    · rw [ValueId.past_of_lt old, framed.kind? v old]
      cases hit : base.kind? v with
      | none => rfl
      | some k => rw [Option.map_some, Kind.rename_past (contained v k hit)]
    · rw [kind?_eq_bare, bare_of_ge (outside v new), kind?_eq_bare, bare_of_ge new]
      rfl
  · intro v
    rcases Nat.lt_or_ge v.index base.values.size with old | new
    · rw [ValueId.past_of_lt old, framed.ty? v old]
    · rw [Graph.ty?, bare_of_ge (outside v new), Graph.ty?, bare_of_ge new]
  · intro v
    rcases Nat.lt_or_ge v.index base.values.size with old | new
    · rw [ValueId.past_of_lt old, limits v old]
    · rw [Graph.limit?, bare_of_ge (outside v new), Graph.limit?, bare_of_ge new]
  · intro v
    rcases Nat.lt_or_ge v.index base.values.size with old | new
    · rw [ValueId.past_of_lt old, framed.operandsOf v old, map_congr_left, map_id']
      intro dest held
      cases dest with
      | none => rfl
      | some w => rw [Option.map_some, ValueId.past_of_lt (ok.operand_lt held)]
    · rw [operandsOf_nil_of_ge (outside v new), operandsOf_nil_of_ge new]
      rfl

section
variable (shifted : Shifted s0 length g g')
include shifted

private theorem lt_iff (v : ValueId) : (v.past s0 length).index < g.values.size ↔ v.index < g'.values.size := by
  rw [shifted.size]
  exact ValueId.past_lt shifted.above

theorem fresh : (⟨g'.values.size⟩ : ValueId).past s0 length = ⟨g.values.size⟩ := by
  rw [shifted.size]
  exact ValueId.past_of_le shifted.above

theorem add (k : Kind) (ty : Ty) (lim : Option Nat) :
    (g.add (k.rename (ValueId.past s0 length)) ty lim).1 = (g'.add k ty lim).1.past s0 length ∧
      Shifted s0 length (g.add (k.rename (ValueId.past s0 length)) ty lim).2 (g'.add k ty lim).2 := by
  have added := shifted.consistent.1.add_added (k.rename (ValueId.past s0 length)) ty lim
  have added' := shifted.consistent.2.add_added k ty lim
  have new : (g.add (k.rename (ValueId.past s0 length)) ty lim).1 =
      (g'.add k ty lim).1.past s0 length := by
    rw [added.fresh, added'.fresh, shifted.fresh]
  have isNew : ∀ v : ValueId, v.past s0 length = (g.add (k.rename (ValueId.past s0 length)) ty lim).1 ↔
      v = (g'.add k ty lim).1 := by
    intro v
    rw [new, (ValueId.past_injective s0 length).eq_iff]
  refine ⟨new, ⟨added.consistent, added'.consistent⟩, ?_, ?_, ?_, ?_, ?_, ?_⟩
  · rw [added.size, added'.size, shifted.size]
    omega
  · rw [added'.size]
    exact Nat.le_succ_of_le shifted.above
  · intro v
    simp only [added.kind?, added'.kind?, isNew, shifted.kind?]
    split <;> rfl
  · intro v
    simp only [added.ty?, added'.ty?, isNew, shifted.ty?]
  · intro v
    simp only [limit?_add, isNew, shifted.limit?]
  · intro v
    rw [added.operandsOf, added'.operandsOf, shifted.operandsOf]

theorem rewired {change change' : ValueId → List (Option ValueId) → List (Option ValueId)} (left : g.Rewired t change) (right : g'.Rewired after' change')
    (agree : ∀ v dests, change (v.past s0 length) (dests.map (Option.map (ValueId.past s0 length))) =
      (change' v dests).map (Option.map (ValueId.past s0 length))) : Shifted s0 length t after' := by
  refine ⟨⟨left.consistent, right.consistent⟩, ?_, ?_, ?_, ?_, ?_, ?_⟩
  · rw [left.size, right.size, shifted.size]
  · rw [right.size]
    exact shifted.above
  · intro v
    rw [left.kind?, right.kind?, shifted.kind?]
  · intro v
    rw [left.ty?, right.ty?, shifted.ty?]
  · intro v
    rw [left.limit?, right.limit?, shifted.limit?]
  · intro v
    rw [left.operandsOf, right.operandsOf, shifted.operandsOf, agree]

theorem rekinded {k : Kind} (left : g.Rekinded t (v.past s0 length) (k.rename (ValueId.past s0 length)))
    (right : g'.Rekinded after' v k) : Shifted s0 length t after' := by
  refine ⟨⟨left.consistent, right.consistent⟩, ?_, ?_, ?_, ?_, ?_, ?_⟩
  · rw [left.size, right.size, shifted.size]
  · rw [right.size]
    exact shifted.above
  · intro w
    simp only [left.kind?, right.kind?, shifted.kind?, (ValueId.past_injective s0 length).eq_iff]
    split <;> rfl
  · intro w
    rw [left.ty?, right.ty?, shifted.ty?]
  · intro w
    rw [left.limit?, right.limit?, shifted.limit?]
  · intro w
    rw [left.operandsOf, right.operandsOf, shifted.operandsOf]

end

theorem setKind {v : ValueId} {k : Kind} (shifted : Shifted s0 length g g')
    (done : g.setKind (v.past s0 length) (k.rename (ValueId.past s0 length)) = .ok t) :
    ∃ after', g'.setKind v k = .ok after' ∧ Shifted s0 length t after' := by
  have left := setKind_rekinded shifted.consistent.1 done
  obtain ⟨after', done', right⟩ :=
    shifted.consistent.2.setKind_rekinded ((shifted.lt_iff v).1 (modify_eq_ok done).1) k
  exact ⟨after', done', shifted.rekinded left right⟩

theorem addOperand {user dest : ValueId} {slot : UseId} (shifted : Shifted s0 length g g')
    (done : g.addOperand (user.past s0 length) (some (dest.past s0 length)) = .ok (slot, t)) :
    ∃ slot' after', g'.addOperand user (some dest) = .ok (slot', after') ∧ Shifted s0 length t after' := by
  obtain ⟨_, grown⟩ := addOperand_extended done
  have left := addOperand_rewired shifted.consistent.1 done
  have there : (dest.past s0 length).index < g.values.size := by
    have held : some (dest.past s0 length) ∈ t.operandsOf (user.past s0 length) := by
      rw [left.operandsOf, if_pos rfl]
      simp
    exact left.size ▸ left.consistent.operand_lt held
  have room : ∀ limit, g'.limit? user = some (some limit) → (g'.operandsOf user).length < limit := by
    intro limit bounded
    rw [← shifted.limit? user] at bounded
    obtain ⟨d, read, isLimit⟩ := Option.map_eq_some_iff.1 bounded
    have room := grown.roomy d limit read isLimit
    have count := congrArg List.length (shifted.operandsOf user)
    rw [Graph.operandsOf, length_map, slots, read, length_map] at count
    exact count ▸ room
  obtain ⟨slot', after', done'⟩ := addOperand_of_room ((shifted.lt_iff user).1 grown.inside)
    ((shifted.lt_iff dest).1 there) room
  refine ⟨slot', after', done', shifted.rewired left (addOperand_rewired shifted.consistent.2 done') ?_⟩
  intro v dests
  simp only [(ValueId.past_injective s0 length).eq_iff]
  split
  · rw [map_append]
    rfl
  · rfl

section
variable (shifted : Shifted s0 length g g')
include shifted

theorem setOperand {user : ValueId} {i : Nat} {dest : Option ValueId}
    (done : g.setOperand (user.past s0 length) i (dest.map (ValueId.past s0 length)) = .ok t) :
    ∃ after', g'.setOperand user i dest = .ok after' ∧ Shifted s0 length t after' := by
  obtain ⟨slot, mem, moved⟩ := setOperand_eq_ok done
  have redirected := setUse_redirected moved
  have valid := shifted.consistent.1.setOperand done
  obtain ⟨lt, _⟩ := List.getElem?_eq_some_iff.1 mem
  have fits : i < (g.operandsOf (user.past s0 length)).length := by rwa [Graph.operandsOf, List.length_map]
  have there : ∀ v, dest = some v → (v.past s0 length).index < g.values.size := by
    intro v isTarget
    have held : t.held slot = some (v.past s0 length) := by
      rw [redirected.held, if_pos rfl, isTarget]
      rfl
    exact redirected.size ▸ valid.held_lt held
  obtain ⟨after1, done1, left⟩ := shifted.consistent.1.setOperand_rewired _ i _ fits (by
    intro v isTarget
    obtain ⟨w, isTarget, eq⟩ := Option.map_eq_some_iff.1 isTarget
    exact eq ▸ there w isTarget)
  obtain rfl : after1 = t := Except.ok.inj (done1.symm.trans done)
  obtain ⟨after', done', right⟩ := shifted.consistent.2.setOperand_rewired user i dest
    (by rwa [shifted.operandsOf, List.length_map] at fits)
    (fun v isTarget => (shifted.lt_iff v).1 (there v isTarget))
  refine ⟨after', done', shifted.rewired left right ?_⟩
  intro v dests
  simp only [(ValueId.past_injective s0 length).eq_iff]
  split
  · rw [List.map_set]
  · rfl

private theorem relocate (done : g.modify (v.past s0 length) (fun d => { d with location := loc }) = .ok t) :
    ∃ after', g'.modify v (fun d => { d with location := loc }) = .ok after' ∧ Shifted s0 length t after' := by
  obtain ⟨after', done'⟩ := modify_of_lt ((shifted.lt_iff v).1 (modify_eq_ok done).1) fun d => { d with location := loc }
  refine ⟨after', done', shifted.rewired (relocate_rewired shifted.consistent.1 done)
    (relocate_rewired shifted.consistent.2 done') ?_⟩
  intro w dests
  rfl

theorem addAt (k : Kind) (ty : Ty) (lim : Option Nat)
    (done : (g.add (k.rename (ValueId.past s0 length)) ty lim).2.modify
      (g.add (k.rename (ValueId.past s0 length)) ty lim).1 (fun d => { d with location := loc }) = .ok t) :
    ∃ after', (g'.add k ty lim).2.modify (g'.add k ty lim).1 (fun d => { d with location := loc }) = .ok after' ∧
      Shifted s0 length t after' := by
  obtain ⟨new, shifted'⟩ := shifted.add k ty lim
  rw [new] at done
  exact shifted'.relocate done

theorem dropOperands (done : g.dropOperands (v.past s0 length) = .ok t) :
    ∃ after', g'.dropOperands v = .ok after' ∧ Shifted s0 length t after' := by
  obtain ⟨d, read, _⟩ := bind_eq_ok.1 done
  have into := lt_of_value read
  obtain ⟨after1, done1, left⟩ := shifted.consistent.1.dropOperands_rewired into
  obtain rfl : after1 = t := Except.ok.inj (done1.symm.trans done)
  obtain ⟨after', done', right⟩ := shifted.consistent.2.dropOperands_rewired ((shifted.lt_iff v).1 into)
  refine ⟨after', done', shifted.rewired left right ?_⟩
  intro w dests
  simp only [(ValueId.past_injective s0 length).eq_iff]
  split <;> rfl

theorem removeFromUsers (done : g.removeFromUsers (v.past s0 length) = .ok t) :
    ∃ after', g'.removeFromUsers v = .ok after' ∧ Shifted s0 length t after' := by
  obtain ⟨users, read, _⟩ := bind_eq_ok.1 done
  obtain ⟨d, read, _⟩ := bind_eq_ok.1 read
  have into := lt_of_value read
  obtain ⟨after1, done1, left⟩ := shifted.consistent.1.removeFromUsers_rewired into
  obtain rfl : after1 = t := Except.ok.inj (done1.symm.trans done)
  obtain ⟨after', done', right⟩ := shifted.consistent.2.removeFromUsers_rewired ((shifted.lt_iff v).1 into)
  refine ⟨after', done', shifted.rewired left right ?_⟩
  intro w dests
  rw [filter_map]
  congr 2
  funext dest
  have eq : Option.map (ValueId.past s0 length) dest = some (v.past s0 length) ↔ dest = some v := by
    rw [← Option.map_some, (Option.map_injective (ValueId.past_injective s0 length)).eq_iff]
  simp [eq]

end

end Shifted
end Graph

namespace Likeness

def shift (start length : Nat) (reported reported' : List Diagnostic) : Likeness where
  rename := ValueId.past start length
  graph := Graph.Shifted start length
  movable _ := True
  report r r' := ∃ later, r.diagnostics = reported ++ later ∧ r'.diagnostics = reported' ++ later
  injective := ValueId.past_injective start length
  consistent shifted := shifted.consistent
  kind shifted := shifted.kind?
  ty shifted := shifted.ty?
  operands shifted := shifted.operandsOf
  add shifted kind ty limit _ := shifted.add kind ty limit
  addOperand shifted _ _ _ _ done := shifted.addOperand done
  addAt shifted kind ty limit _ _ _ done := shifted.addAt kind ty limit done
  setBlock shifted v _ data _ _ done := @Graph.Shifted.setKind start length _ _ _ v (.block data) shifted done
  setOperand shifted _ _ _ _ _ done := shifted.setOperand done
  reported := by
    intro r r' ⟨later, left, right⟩ d
    refine ⟨later ++ [d], ?_, ?_⟩
    · rw [Report.diagnostics_add, left, append_assoc]
    · rw [Report.diagnostics_add, right, append_assoc]

structure Thorough (L : Likeness) : Prop where
  add : ∀ {g g'}, L.graph g g' → ∀ kind ty limit,
    (g.add (kind.rename L.rename) ty limit).1 = L.rename (g'.add kind ty limit).1 ∧
      L.graph (g.add (kind.rename L.rename) ty limit).2 (g'.add kind ty limit).2
  movable : ∀ v, L.movable v
  setKind : ∀ {g g'}, L.graph g g' → ∀ v kind after, g.setKind (L.rename v) (kind.rename L.rename) = .ok after →
    ∃ after', g'.setKind v kind = .ok after' ∧ L.graph after after'
  dropOperands : ∀ {g g'}, L.graph g g' → ∀ v after, g.dropOperands (L.rename v) = .ok after →
    ∃ after', g'.dropOperands v = .ok after' ∧ L.graph after after'
  removeFromUsers : ∀ {g g'}, L.graph g g' → ∀ v after, g.removeFromUsers (L.rename v) = .ok after →
    ∃ after', g'.removeFromUsers v = .ok after' ∧ L.graph after after'

theorem shift_thorough (s0 length : Nat) (reported reported' : List Diagnostic) :
    (shift s0 length reported reported').Thorough where
  add shifted := shifted.add
  movable _ := trivial
  setKind shifted _ _ _ done := shifted.setKind done
  dropOperands shifted _ _ done := shifted.dropOperands done
  removeFromUsers shifted _ _ done := shifted.removeFromUsers done

end Likeness
end Midend
