import Midend.Proofs.Flow.WellFormed

/-! How a graph grows while code is built: values are added, values are given further
operands, and instructions are put into blocks. -/
namespace Midend.Graph
open Option
variable {g t : Graph} {v : ValueId}

structure Added (g after : Graph) (v : ValueId) (kind : Kind) (ty : Ty) : Prop where
  consistent : after.Consistent
  fresh : v = ⟨g.values.size⟩
  size : after.values.size = g.values.size + 1
  kind? : ∀ w, after.kind? w = if w = v then some kind else g.kind? w
  ty? : ∀ w, after.ty? w = if w = v then some ty else g.ty? w
  limit? : ∀ w, w ≠ v → after.limit? w = g.limit? w
  operandsOf : ∀ w, after.operandsOf w = g.operandsOf w

theorem limit?_add (g : Graph) (k : Kind) (ty : Ty) (operandLimit : Option Nat) (w : ValueId) :
    (g.add k ty operandLimit).2.limit? w =
      if w = (g.add k ty operandLimit).1 then some operandLimit else g.limit? w := by
  have newest : w.index = g.values.size ↔ w = (g.add k ty operandLimit).1 := by
    cases w
    simp [id_add]
  simp only [limit?, bare_add, newest]
  split <;> rfl

theorem Consistent.add_added (ok : g.Consistent) (k : Kind) (ty : Ty) (operandLimit : Option Nat) :
    g.Added (g.add k ty operandLimit).2 (g.add k ty operandLimit).1 k ty := by
  have newest : ∀ w : ValueId, w.index = g.values.size ↔ w = (g.add k ty operandLimit).1 := by
    rintro ⟨i⟩
    simp [id_add]
  refine ⟨ok.add k ty operandLimit, g.id_add k ty operandLimit, g.size_add k ty operandLimit,
    ?_, ?_, ?_, ?_⟩
  · intro w
    simp only [kind?_eq_bare, bare_add, newest w]
    split <;> rfl
  · intro w
    simp only [ty?, bare_add, newest w]
    split <;> rfl
  · intro w older
    rw [limit?_add, if_neg older]
  · intro w
    rw [operandsOf, slots_add, operandsOf]
    rfl

theorem kind?_fresh (g : Graph) : g.kind? ⟨g.values.size⟩ = none := by
  rw [← not_isSome_iff_eq_none, kind?_isSome]
  exact Nat.lt_irrefl _

theorem ne_fresh (into : v.index < g.values.size) : v ≠ ⟨g.values.size⟩ := by
  rintro rfl
  exact Nat.lt_irrefl _ into

namespace Added
variable {g t : Graph} {v : ValueId} {k : Kind} {ty : Ty}
variable {w : ValueId}

theorem kind?_of_some (add : g.Added t v k ty) {other : Kind} (hit : g.kind? w = some other) :
    t.kind? w = some other := by
  rw [add.kind? w, if_neg, hit]
  rw [add.fresh]
  exact ne_fresh (lt_of_kind? hit)

theorem ty?_of_some (add : g.Added t v k ty) {other : Ty} (hit : g.ty? w = some other) :
    t.ty? w = some other := by
  rw [add.ty? w, if_neg, hit]
  rw [add.fresh]
  exact ne_fresh (lt_of_ty? hit)

theorem limit?_of_some (add : g.Added t v k ty) {lim : Option Nat} (hit : g.limit? w = some lim) :
    t.limit? w = some lim := by
  rw [add.limit? w, hit]
  rw [add.fresh]
  exact ne_fresh (lt_of_limit? hit)

theorem code (add : g.Added t v k ty) (empty : k.insts = []) (w : ValueId) : t.code w = g.code w := by
  rw [Graph.code, add.kind? w, Graph.code]
  split
  next eq =>
    rw [eq, add.fresh, kind?_fresh]
    simpa using empty
  next => rfl

end Added

theorem addOperand_rewired {user dest : ValueId} {slot : UseId} (valid : g.Consistent)
    (done : g.addOperand user (some dest) = .ok (slot, t)) :
    g.Rewired t fun v old => if v = user then old ++ [some dest] else old := by
  obtain ⟨_, grown⟩ := addOperand_extended done
  have older : ∀ v, ∀ s ∈ g.slots v, t.held s = g.held s := by
    intro v s mem
    rw [grown.held s, if_neg (Nat.ne_of_lt (valid.slot_lt mem))]
  refine ⟨grown.consistent valid, grown.size, ?_, ?_, ?_, ?_⟩
  · intro v
    rw [kind?_eq_bare, grown.bare v, kind?_eq_bare]
    split
    · rw [map_map]
      rfl
    · rfl
  · intro v
    rw [ty?, grown.bare v, ty?]
    split
    · rw [map_map]
      rfl
    · rfl
  · intro v
    rw [limit?, grown.bare v, limit?]
    split
    · rw [map_map]
      rfl
    · rfl
  · intro v
    rw [operandsOf, grown.slots v, operandsOf]
    split
    · rw [List.map_append, List.map_congr_left (older v)]
      simp [grown.held]
    · exact List.map_congr_left (older v)

theorem addOperand_of_room {g : Graph} {user dest : ValueId} (into : user.index < g.values.size)
    (there : dest.index < g.values.size)
    (room : ∀ lim, g.limit? user = some (some lim) → (g.operandsOf user).length < lim) :
    ∃ slot t, g.addOperand user (some dest) = .ok (slot, t) := by
  obtain ⟨d, hit⟩ := value_of_lt into
  have checked : checkLimit user d = .ok () := by
    refine checkLimit_eq_ok.2 fun lim bounded => ?_
    have length := room lim (by rw [limit?, bare_eq_some hit, ← bounded]; rfl)
    rwa [operandsOf, List.length_map, slots_of_value hit] at length
  obtain ⟨mid, mem⟩ := @modify_of_lt { g with uses := g.uses.push ⟨none, user⟩ } user into
    fun v => { v with operands := v.operands ++ [⟨g.uses.size⟩] }
  obtain ⟨_, uses, size, _⟩ := modify_eq_ok mem
  have owned : mid.owner ⟨g.uses.size⟩ = some user := by simp [owner, uses]
  have empty : mid.held ⟨g.uses.size⟩ = none := by simp [held, uses]
  obtain ⟨t, pointed⟩ := setUse_of_lt owned (some dest) (by simp [empty])
    (fun v eq => by cases eq; exact size ▸ there)
  refine ⟨⟨g.uses.size⟩, t, ?_⟩
  unfold Graph.addOperand
  simp only [hit, bind, Except.bind, checked, mem, pointed]
  rfl

theorem relocate_rewired {location : Option Location} (valid : g.Consistent)
    (done : g.modify v (fun d => { d with location }) = .ok t) : g.Rewired t fun _ old => old := by
  have remade : g.Remade t v fun d => { d with location } :=
    modify_remade valid (fun _ _ => rfl) (fun _ => ⟨rfl, rfl, rfl⟩) done
  refine ⟨remade.consistent, remade.size, ?_, ?_, remade.limit? fun _ => rfl, remade.operandsOf⟩
  · intro w
    rw [kind?_eq_bare, remade.bare w, kind?_eq_bare]
    split
    · rw [map_map]
      rfl
    · rfl
  · intro w
    rw [ty?, remade.bare w, ty?]
    split
    · rw [map_map]
      rfl
    · rfl

end Midend.Graph
