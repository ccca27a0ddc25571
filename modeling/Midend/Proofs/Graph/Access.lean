import Midend.Graph.Layout

/-! What the operations of the graph do, told by what can be read afterwards: the data of
a value apart from its use list, the value that a slot holds, the owner of a slot, and
the use lists. Every other module about the graph goes through these readings. -/
namespace Midend
open Option
variable {α β ε : Type} {P : β → Prop} {s0 res : β} {step : β → α → Except ε β} {attempt : Except ε α}

theorem bind_eq_ok {next : α → Except ε β} :
    (attempt >>= next) = .ok res ↔ ∃ val, attempt = .ok val ∧ next val = .ok res := by
  cases attempt with
  | error e => simp [bind, Except.bind]
  | ok val => simp [bind, Except.bind]

theorem map_eq_ok {f : α → β} : f <$> attempt = .ok res ↔ ∃ val, attempt = .ok val ∧ f val = res := by
  cases attempt with
  | error e => simp [Functor.map, Except.map]
  | ok val => simp [Functor.map, Except.map]

theorem pure_eq_ok {val res : α} : (pure val : Except ε α) = .ok res ↔ val = res := by
  simp [pure, Except.pure]

theorem ok_of_toOption_map {ε α β : Type} {res : Except ε α} {read : α → β} {hit : β}
    (old : res.toOption.map read = some hit) : ∃ val, res = .ok val ∧ read val = hit := by
  cases res with
  | error e => cases old
  | ok val => exact ⟨val, rfl, Option.some.inj old⟩

theorem foldlM_keeps (items : List α)
    (kept : ∀ pre, ∀ item ∈ items, ∀ t, P pre → step pre item = .ok t → P t) (h : P s0)
    (done : items.foldlM step s0 = .ok res) : P res := by
  induction items generalizing s0 with
  | nil =>
    rw [List.foldlM_nil, pure_eq_ok] at done
    exact done ▸ h
  | cons item items ih =>
    rw [List.foldlM_cons, bind_eq_ok] at done
    obtain ⟨next, first, tl⟩ := done
    exact ih (fun pre other mem => kept pre other (List.mem_cons_of_mem _ mem))
      (kept s0 item (List.mem_cons_self ..) next h first) tl

theorem foldlM_succeeds (items : List α)
    (steps : ∀ pre, ∀ item ∈ items, P pre → ∃ t, step pre item = .ok t ∧ P t) (h : P s0) :
    ∃ res, items.foldlM step s0 = .ok res ∧ P res := by
  induction items generalizing s0 with
  | nil => exact ⟨s0, rfl, h⟩
  | cons item items ih =>
    obtain ⟨next, first, kept⟩ := steps s0 item (List.mem_cons_self ..) h
    obtain ⟨res, tl, final⟩ :=
      ih (fun pre other mem => steps pre other (List.mem_cons_of_mem _ mem)) kept
    exact ⟨res, by rw [List.foldlM_cons, first]; exact tl, final⟩

namespace Graph
variable {d : Value} {g upd t : Graph} {v user : ValueId} {slot : UseId} {use : Use}
  {f : List UseId → List UseId} {dest : Option ValueId}

def bare (g : Graph) (v : ValueId) : Option Value :=
  g.values[v.index]?.map fun data => { data with uses := [] }

def usesOf (g : Graph) (v : ValueId) : List UseId :=
  (g.values[v.index]?.map (·.uses)).getD []

def slots (g : Graph) (v : ValueId) : List UseId :=
  ((g.bare v).map (·.operands)).getD []

def held (g : Graph) (slot : UseId) : Option ValueId := g.uses[slot.index]?.bind (·.value)

def owner (g : Graph) (slot : UseId) : Option ValueId := g.uses[slot.index]?.map (·.user)

theorem bare_eq_some (hit : g.value v = .ok d) : g.bare v = some { d with uses := [] } := by
  rw [value_eq_ok_iff] at hit
  simp [bare, hit]

theorem bare_isSome : (g.bare v).isSome ↔ v.index < g.values.size := by
  simp [bare]

theorem bare_of_ge (outside : g.values.size ≤ v.index) : g.bare v = none := by
  rw [← not_isSome_iff_eq_none, bare_isSome]
  exact Nat.not_lt_of_le outside

theorem slots_of_value (hit : g.value v = .ok d) : g.slots v = d.operands := by
  simp [slots, bare_eq_some hit]

theorem usesOf_of_value (hit : g.value v = .ok d) : g.usesOf v = d.uses := by
  rw [value_eq_ok_iff] at hit
  simp [usesOf, hit]

theorem value_of_lt (into : v.index < g.values.size) : ∃ d, g.value v = .ok d := by
  exact ⟨g.values[v.index], value_eq_ok_iff.2 (Array.getElem?_eq_getElem into)⟩

theorem lt_of_value (hit : g.value v = .ok d) : v.index < g.values.size := by
  rw [value_eq_ok_iff] at hit
  exact (Array.getElem?_eq_some_iff.1 hit).1

theorem lt_of_mem_slots (mem : slot ∈ g.slots v) : v.index < g.values.size := by
  rw [← bare_isSome]
  cases missing : g.bare v with
  | none => simp [slots, missing] at mem
  | some d => rfl

theorem lt_of_mem_usesOf (mem : slot ∈ g.usesOf v) : v.index < g.values.size := by
  cases missing : g.values[v.index]? with
  | none => simp [usesOf, missing] at mem
  | some d => exact (Array.getElem?_eq_some_iff.1 missing).1

theorem getUse_eq_ok : g.getUse slot = .ok use ↔ g.uses[slot.index]? = some use := by
  unfold getUse
  split <;> simp_all

theorem held_of_getUse (hit : g.getUse slot = .ok use) : g.held slot = use.value := by
  simp [held, getUse_eq_ok.1 hit]

theorem owner_of_getUse (hit : g.getUse slot = .ok use) : g.owner slot = some use.user := by
  simp [owner, getUse_eq_ok.1 hit]

theorem owner_isSome : (g.owner slot).isSome ↔ slot.index < g.uses.size := by
  simp [owner]

theorem getUse_of_owner (owned : g.owner slot = some user) : g.getUse slot = .ok ⟨g.held slot, user⟩ := by
  obtain ⟨use, hit, rfl⟩ := map_eq_some_iff.1 owned
  rw [getUse_eq_ok, held, hit]
  rfl

theorem modify_eq_ok {f : Value → Value} (done : g.modify v f = .ok upd) :
    v.index < g.values.size ∧ upd.uses = g.uses ∧ upd.values.size = g.values.size ∧
      ∀ w : ValueId, upd.values[w.index]? =
        if w = v then g.values[w.index]?.map f else g.values[w.index]? := by
  unfold modify at done
  split at done
  next into =>
    cases done
    refine ⟨into, rfl, Array.size_modify, ?_⟩
    intro w
    rw [Array.getElem?_modify]
    by_cases eq : v.index = w.index
    · have equal : w = v := by cases v; cases w; simp_all
      simp [equal]
    · have ne : w ≠ v := fun equal => eq (equal ▸ rfl)
      simp [eq, ne]
  next outside => cases done

theorem modify_of_lt {g : Graph} {v : ValueId} (into : v.index < g.values.size)
    (f : Value → Value) : ∃ upd, g.modify v f = .ok upd := by
  exact ⟨_, if_pos into⟩

structure Redirected (g after : Graph) (slot : UseId) (target : Option ValueId) : Prop where
  size : after.values.size = g.values.size
  slotCount : after.uses.size = g.uses.size
  bare : ∀ v, after.bare v = g.bare v
  owner : ∀ s, after.owner s = g.owner s
  held : ∀ s, after.held s = if s = slot then target else g.held s
  usesOf : ∀ v, after.usesOf v =
    if g.held slot = target then g.usesOf v
    else (if g.held slot = some v then (g.usesOf v).filter (· ≠ slot) else g.usesOf v) ++
      if target = some v then [slot] else []

private theorem bare_modify_uses (done : g.modify v (fun d => { d with uses := f d.uses }) = .ok upd)
    (w : ValueId) : upd.bare w = g.bare w := by
  obtain ⟨_, _, _, values⟩ := modify_eq_ok done
  unfold bare
  rw [values w]
  split
  · rw [map_map]
    rfl
  · rfl

private theorem usesOf_modify_uses (done : g.modify v (fun d => { d with uses := f d.uses }) = .ok upd)
    (w : ValueId) : upd.usesOf w = if v = w then f (g.usesOf w) else g.usesOf w := by
  obtain ⟨into, _, _, values⟩ := modify_eq_ok done
  unfold usesOf
  rw [values w]
  by_cases eq : w = v
  · subst eq
    simp [Array.getElem?_eq_getElem into]
  · simp [eq, Ne.symm eq]

private theorem unregister_eq_ok {old : Option ValueId} (done : g.unregister slot old = .ok t) :
    t.values.size = g.values.size ∧ t.uses = g.uses ∧ (∀ v, t.bare v = g.bare v) ∧ ∀ v, t.usesOf v =
        if old = some v then (g.usesOf v).filter (· ≠ slot) else g.usesOf v := by
  cases old with
  | none =>
    cases done
    simp
  | some val =>
    obtain ⟨_, uses, size, _⟩ := modify_eq_ok done
    refine ⟨size, uses, bare_modify_uses done, ?_⟩
    intro v
    rw [usesOf_modify_uses done v]
    simp

private theorem register_eq_ok (done : g.register slot dest = .ok t) :
    t.values.size = g.values.size ∧ t.uses = g.uses ∧ (∀ v, t.bare v = g.bare v) ∧
      ∀ v, t.usesOf v = g.usesOf v ++ if dest = some v then [slot] else [] := by
  cases dest with
  | none =>
    cases done
    simp
  | some val =>
    obtain ⟨_, uses, size, _⟩ := modify_eq_ok done
    refine ⟨size, uses, bare_modify_uses (f := (· ++ [slot])) done, ?_⟩
    intro v
    rw [usesOf_modify_uses (f := (· ++ [slot])) done v]
    by_cases eq : val = v
    · simp [eq]
    · simp [eq]

/-- What pointing a slot elsewhere does. -/
theorem setUse_redirected (done : g.setUse slot dest = .ok t) : g.Redirected t slot dest := by
  unfold setUse at done
  obtain ⟨use, hit, done⟩ := bind_eq_ok.1 done
  have h := held_of_getUse hit
  dsimp only at done
  split at done
  next eq =>
    cases done
    refine ⟨rfl, rfl, fun _ => rfl, fun _ => rfl, ?_, ?_⟩
    · intro s
      split
      next equal => rw [equal, h, eq]
      next ne => rfl
    · intro v
      rw [if_pos (h.trans eq)]
  next ne =>
    obtain ⟨first, gone, done⟩ := bind_eq_ok.1 done
    obtain ⟨second, add, done⟩ := bind_eq_ok.1 done
    obtain ⟨size1, uses1, bares1, lists1⟩ := unregister_eq_ok gone
    obtain ⟨size2, uses2, bares2, lists2⟩ := register_eq_ok add
    have uses := uses2.trans uses1
    cases done
    have into := (Array.getElem?_eq_some_iff.1 (getUse_eq_ok.1 hit)).1
    refine ⟨size2.trans size1, by simp [uses], fun v => (bares2 v).trans (bares1 v), ?_, ?_, ?_⟩
    · intro s
      simp only [owner, uses, Array.getElem?_modify]
      split
      · rw [map_map]
        rfl
      · rfl
    · intro s
      simp only [held, uses, Array.getElem?_modify]
      by_cases eq : s = slot
      · subst eq
        simp [Array.getElem?_eq_getElem into]
      · have apart : slot.index ≠ s.index := fun equal => eq (by cases s; cases slot; simp_all)
        simp [eq, apart]
    · intro v
      rw [h, if_neg ne, ← lists1 v]
      exact lists2 v

theorem setUse_of_lt (owned : g.owner slot = some user) (dest : Option ValueId)
    (old : ∀ v, g.held slot = some v → v.index < g.values.size) (new : ∀ v, dest = some v → v.index < g.values.size) :
    ∃ t, g.setUse slot dest = .ok t := by
  obtain ⟨mid, gone⟩ : ∃ mid, g.unregister slot (g.held slot) = .ok mid := by
    cases h : g.held slot with
    | none => exact ⟨g, rfl⟩
    | some v => exact modify_of_lt (old v h) _
  have size := (unregister_eq_ok gone).1
  obtain ⟨last, add⟩ : ∃ last, mid.register slot dest = .ok last := by
    cases dest with
    | none => exact ⟨mid, rfl⟩
    | some v => exact modify_of_lt (size ▸ new v rfl) _
  unfold setUse
  rw [getUse_of_owner owned]
  simp only [bind, Except.bind]
  split
  · exact ⟨g, rfl⟩
  · rw [gone]
    simp only [add]
    exact ⟨_, rfl⟩

@[simp]
theorem id_add (g : Graph) (k : Kind) (ty : Ty) (operandLimit : Option Nat) :
    (g.add k ty operandLimit).1 = ⟨g.values.size⟩ := rfl

@[simp]
theorem size_add (g : Graph) (k : Kind) (ty : Ty) (operandLimit : Option Nat) :
    (g.add k ty operandLimit).2.values.size = g.values.size + 1 := by
  simp [add]

theorem bare_add (g : Graph) (kind : Kind) (ty : Ty) (operandLimit : Option Nat) (v : ValueId) :
    (g.add kind ty operandLimit).2.bare v =
      if v.index = g.values.size then some { kind, ty, operandLimit } else g.bare v := by
  simp only [bare, add, Array.getElem?_push]
  split <;> rfl

theorem usesOf_add (g : Graph) (k : Kind) (ty : Ty) (operandLimit : Option Nat) (v : ValueId) :
    (g.add k ty operandLimit).2.usesOf v = g.usesOf v := by
  simp only [usesOf, add, Array.getElem?_push]
  split
  next last => simp [last]
  next => rfl

theorem checkLimit_eq_ok : checkLimit user d = .ok () ↔
      ∀ lim, d.operandLimit = some lim → d.operands.length < lim := by
  unfold checkLimit
  cases d.operandLimit with
  | none => simp
  | some lim => simp

structure Extended (g after : Graph) (user : ValueId) (target : Option ValueId) : Prop where
  size : after.values.size = g.values.size
  slotCount : after.uses.size = g.uses.size + 1
  inside : user.index < g.values.size
  roomy : ∀ data limit, g.bare user = some data → data.operandLimit = some limit →
    data.operands.length < limit
  bare : ∀ v, after.bare v =
    if v = user then
      (g.bare v).map fun data => { data with operands := data.operands ++ [⟨g.uses.size⟩] }
    else g.bare v
  owner : ∀ s, after.owner s = if s.index = g.uses.size then some user else g.owner s
  held : ∀ s, after.held s = if s.index = g.uses.size then target else g.held s
  usesOf : ∀ v, after.usesOf v = g.usesOf v ++ if target = some v then [⟨g.uses.size⟩] else []

private theorem modify_push_use {mid : Graph}
    (done : ({ g with uses := g.uses.push ⟨none, user⟩ } : Graph).modify user
      (fun v => { v with operands := v.operands ++ [⟨g.uses.size⟩] }) = .ok mid) :
    mid.values.size = g.values.size ∧ mid.uses = g.uses.push ⟨none, user⟩ ∧
      (∀ v, mid.usesOf v = g.usesOf v) ∧ ∀ v, mid.bare v =
        if v = user then
          (g.bare v).map fun data => { data with operands := data.operands ++ [⟨g.uses.size⟩] }
        else g.bare v := by
  obtain ⟨_, uses, size, values⟩ := modify_eq_ok done
  refine ⟨size, uses, ?_, ?_⟩
  · intro v
    unfold usesOf
    rw [values v]
    split
    · rw [map_map]
      rfl
    · rfl
  · intro v
    unfold bare
    rw [values v]
    split
    · rw [map_map, map_map]
      rfl
    · rfl

/-- What adding an operand does. -/
theorem addOperand_extended (done : g.addOperand user dest = .ok (slot, t)) :
    slot = ⟨g.uses.size⟩ ∧ g.Extended t user dest := by
  obtain ⟨data, hit, done⟩ := bind_eq_ok.1 done
  obtain ⟨_, checked, done⟩ := bind_eq_ok.1 done
  obtain ⟨mid, mem, done⟩ := bind_eq_ok.1 done
  obtain ⟨last, pointed, done⟩ := bind_eq_ok.1 done
  obtain ⟨rfl, rfl⟩ := Prod.mk.inj (pure_eq_ok.1 done)
  obtain ⟨size, uses, lists, bares⟩ := modify_push_use mem
  have moved := setUse_redirected pointed
  have empty : mid.held ⟨g.uses.size⟩ = none := by simp [held, uses]
  refine ⟨rfl, moved.size.trans size, by simp [moved.slotCount, uses], lt_of_value hit, ?_,
    fun v => (moved.bare v).trans (bares v), ?_, ?_, ?_⟩
  · intro _ lim bared
    cases Option.some.inj ((bare_eq_some hit).symm.trans bared)
    exact checkLimit_eq_ok.1 checked lim
  · intro s
    rw [moved.owner s]
    simp only [owner, uses, Array.getElem?_push]
    split <;> rfl
  · intro s
    rw [moved.held s]
    by_cases new : s.index = g.uses.size
    · have eq : s = ⟨g.uses.size⟩ := by cases s; simp_all
      simp [eq]
    · have other : s ≠ ⟨g.uses.size⟩ := fun eq => new (eq ▸ rfl)
      simp [held, uses, Array.getElem?_push, new, other]
  · intro v
    rw [moved.usesOf v, lists v, empty]
    by_cases none : dest = none
    · simp [none]
    · simp [Ne.symm none]

end Graph
end Midend
