import Midend.Proofs.Graph.Consistent
import Mathlib.Data.List.Nodup
import Mathlib.Data.List.Perm.Basic

/-! The graph as its users see it: the kind and the type of every value and the list of
the values it refers to. In a graph whose slots and use lists agree, every operation
succeeds on values that are there, and its effect on these three is a plain equation. -/
namespace Midend
open List

private theorem mapM_eq_ok {ε α β : Type} {f : α → Except ε β} {h : α → β} {items : List α}
    (each : ∀ item ∈ items, f item = .ok (h item)) : items.mapM f = .ok (items.map h) := by
  induction items with
  | nil => rfl
  | cons item items ih =>
    rw [mapM_cons, each item (mem_cons_self ..), ih fun other mem => each other (mem_cons_of_mem _ mem)]
    rfl

namespace Graph
variable {g t : Graph} {v user : ValueId} {k : Kind} {ty : Ty} {d : Block} {dest : Option ValueId}
  {change : ValueId → List (Option ValueId) → List (Option ValueId)} {slot : UseId} {ls : List UseId}
  {f : Value → Value} {α : Type}

def ty? (g : Graph) (v : ValueId) : Option Ty := (g.bare v).map (·.ty)

def limit? (g : Graph) (v : ValueId) : Option (Option Nat) := (g.bare v).map (·.operandLimit)

def operandsOf (g : Graph) (v : ValueId) : List (Option ValueId) := (g.slots v).map g.held

theorem kind?_eq_bare (g : Graph) (v : ValueId) : g.kind? v = (g.bare v).map (·.kind) := by
  simp [kind?, bare, Function.comp_def]

theorem kind?_isSome : (g.kind? v).isSome ↔ v.index < g.values.size := by
  rw [kind?_eq_bare, Option.isSome_map, bare_isSome]

theorem lt_of_kind? (hit : g.kind? v = some k) : v.index < g.values.size :=
  kind?_isSome.1 (hit ▸ rfl)

theorem lt_of_ty? (hit : g.ty? v = some ty) : v.index < g.values.size := by
  obtain ⟨d, read, _⟩ := Option.map_eq_some_iff.1 hit
  exact bare_isSome.1 (by rw [read]; rfl)

theorem lt_of_limit? {lim : Option Nat} (hit : g.limit? v = some lim) : v.index < g.values.size := by
  obtain ⟨d, read, _⟩ := Option.map_eq_some_iff.1 hit
  exact bare_isSome.1 (by rw [read]; rfl)

theorem kind_eq_ok : g.kind v = .ok k ↔ g.kind? v = some k := by
  unfold Graph.kind kind? value
  split
  next data hit => simp [hit, Functor.map, Except.map]
  next missing => simp [missing, Functor.map, Except.map]

theorem block_eq_ok : g.block v = .ok d ↔ g.kind? v = some (.block d) := by
  rw [← kind_eq_ok]
  unfold Graph.block
  cases g.kind v with
  | error fault => simp [bind, Except.bind]
  | ok k => cases k <;> simp [bind, Except.bind, pure, Except.pure, throw, throwThe, MonadExceptOf.throw]

theorem function_eq_ok {d : Func} : g.function v = .ok d ↔ g.kind? v = some (.function d) := by
  rw [← kind_eq_ok]
  unfold Graph.function
  cases g.kind v with
  | error fault => simp [bind, Except.bind]
  | ok k => cases k <;> simp [bind, Except.bind, pure, Except.pure, throw, throwThe, MonadExceptOf.throw]

theorem ty_eq_ok : g.ty v = .ok ty ↔ g.ty? v = some ty := by
  unfold Graph.ty ty? bare value
  split
  next data hit => simp [hit, Functor.map, Except.map]
  next missing => simp [missing, Functor.map, Except.map]

theorem operandsOf_nil_of_ge (outside : g.values.size ≤ v.index) : g.operandsOf v = [] := by
  have missing : g.bare v = none := by simp [bare, outside]
  simp [operandsOf, slots, missing]

theorem lt_of_mem_operandsOf (mem : dest ∈ g.operandsOf v) : v.index < g.values.size := by
  obtain ⟨slot, isIn, _⟩ := mem_map.1 mem
  exact lt_of_mem_slots isIn

namespace Consistent
variable {g : Graph}
variable {v : ValueId}

theorem operand_lt (valid : g.Consistent) {dest : ValueId} (mem : some dest ∈ g.operandsOf user) :
    dest.index < g.values.size := by
  obtain ⟨slot, _, h⟩ := mem_map.1 mem
  exact valid.held_lt h

theorem operands (valid : g.Consistent) (into : v.index < g.values.size) : g.operands v = .ok (g.operandsOf v) := by
  obtain ⟨d, hit⟩ := value_of_lt into
  unfold Graph.operands
  rw [hit, operandsOf, slots_of_value hit]
  refine mapM_eq_ok ?_
  intro slot mem
  rw [valid.getUse (slots_of_value hit ▸ mem)]
  rfl

theorem operand (valid : g.Consistent) (into : v.index < g.values.size) (i : Nat) :
    g.operand v i = .ok ((g.operandsOf v)[i]?.join) := by
  obtain ⟨d, hit⟩ := value_of_lt into
  have ls := slots_of_value hit
  unfold Graph.operand
  rw [hit, operandsOf, getElem?_map, ls]
  simp only [bind, Except.bind]
  cases mem : d.operands[i]? with
  | none => rfl
  | some slot =>
    simp only [valid.getUse (ls ▸ mem_of_getElem? mem)]
    rfl

end Consistent

structure Rewired (g after : Graph)
    (change : ValueId → List (Option ValueId) → List (Option ValueId)) : Prop where
  consistent : after.Consistent
  size : after.values.size = g.values.size
  kind? : ∀ v, after.kind? v = g.kind? v
  ty? : ∀ v, after.ty? v = g.ty? v
  limit? : ∀ v, after.limit? v = g.limit? v
  operandsOf : ∀ v, after.operandsOf v = change v (g.operandsOf v)

structure Rekinded (g after : Graph) (v : ValueId) (kind : Kind) : Prop where
  consistent : after.Consistent
  size : after.values.size = g.values.size
  kind? : ∀ w, after.kind? w = if w = v then some kind else g.kind? w
  ty? : ∀ w, after.ty? w = g.ty? w
  limit? : ∀ w, after.limit? w = g.limit? w
  operandsOf : ∀ w, after.operandsOf w = g.operandsOf w

theorem Rewired.unchanged (valid : g.Consistent) (eq : ∀ v, g.operandsOf v = change v (g.operandsOf v)) :
    g.Rewired g change :=
  ⟨valid, rfl, fun _ => rfl, fun _ => rfl, fun _ => rfl, eq⟩

theorem Rewired.trans {mid : Graph} {first second : ValueId → List (Option ValueId) → List (Option ValueId)}
    (left : g.Rewired mid first) (right : mid.Rewired t second) :
    g.Rewired t fun v old => second v (first v old) :=
  ⟨right.consistent, right.size.trans left.size, fun v => (right.kind? v).trans (left.kind? v),
    fun v => (right.ty? v).trans (left.ty? v), fun v => (right.limit? v).trans (left.limit? v),
    fun v => (right.operandsOf v).trans (congrArg (second v) (left.operandsOf v))⟩

theorem Rewired.congr {other : ValueId → List (Option ValueId) → List (Option ValueId)}
    (wired : g.Rewired t change) (eq : ∀ v, change v (g.operandsOf v) = other v (g.operandsOf v)) :
    g.Rewired t other :=
  ⟨wired.consistent, wired.size, wired.kind?, wired.ty?, wired.limit?,
    fun v => (wired.operandsOf v).trans (eq v)⟩

theorem SameValues.kind? (eq : g.SameValues t) (v : ValueId) : t.kind? v = g.kind? v := by
  rw [kind?_eq_bare, kind?_eq_bare, eq.bare v]

theorem SameValues.ty? (eq : g.SameValues t) (v : ValueId) : t.ty? v = g.ty? v := by
  rw [Graph.ty?, Graph.ty?, eq.bare v]

theorem SameValues.limit? (eq : g.SameValues t) (v : ValueId) : t.limit? v = g.limit? v := by
  rw [Graph.limit?, Graph.limit?, eq.bare v]

private theorem map_held_set {index : Nat} (nodup : ls.Nodup) (mem : ls[index]? = some slot) :
    ls.map (fun s => if s = slot then dest else g.held s) = (ls.map g.held).set index dest := by
  obtain ⟨into, hit⟩ := List.getElem?_eq_some_iff.1 mem
  apply List.ext_getElem
  · simp
  · intro i left right
    rw [List.getElem_map, List.getElem_set, List.getElem_map]
    rw [List.length_map] at left
    by_cases eq : index = i
    · subst eq
      simp [hit]
    · have apart : ls[i] ≠ slot := fun equal =>
        eq (nodup.getElem_inj_iff.1 (hit.trans equal.symm))
      simp [eq, apart]

theorem Consistent.setOperand_rewired (valid : g.Consistent) (user : ValueId) (i : Nat) (dest : Option ValueId)
    (into : i < (g.operandsOf user).length) (there : ∀ v, dest = some v → v.index < g.values.size) :
    ∃ t, g.setOperand user i dest = .ok t ∧
      g.Rewired t fun v old => if v = user then old.set i dest else old := by
  rw [operandsOf, length_map] at into
  obtain ⟨slot, isIn⟩ : ∃ slot, (g.slots user)[i]? = some slot :=
    ⟨_, getElem?_eq_getElem into⟩
  have mem := mem_of_getElem? isIn
  obtain ⟨t, moved⟩ := setUse_of_lt (valid.owned user slot mem) dest (fun v h => valid.held_lt h) there
  have redirected := setUse_redirected moved
  obtain ⟨d, hit⟩ := value_of_lt (lt_of_mem_slots mem)
  refine ⟨t, ?_, redirected.consistent valid ⟨user, mem⟩, redirected.size,
    redirected.sameValues.kind?, redirected.sameValues.ty?, redirected.sameValues.limit?, ?_⟩
  · unfold Graph.setOperand
    rw [hit]
    simp only [bind, Except.bind]
    rw [slots_of_value hit] at isIn
    rw [isIn]
    exact moved
  · intro v
    have held : t.held = fun s => if s = slot then dest else g.held s := funext redirected.held
    rw [operandsOf, redirected.slots v, held]
    split
    next eq =>
      subst eq
      exact map_held_set (valid.nodup v) isIn
    next ne =>
      refine map_congr_left ?_
      intro s inList
      rw [if_neg]
      intro eq
      exact ne (valid.eq_of_mem (eq ▸ inList) mem)

/-- Replacing a value succeeds, and each operand that was the value is the other one. -/
theorem Consistent.replaceBy_rewired (valid : g.Consistent) {old new : ValueId} (here : old.index < g.values.size)
    (there : new.index < g.values.size) :
    ∃ after, g.replaceBy old new = .ok after ∧
      g.Rewired after fun _ dests => dests.map fun t => if t = some old then some new else t := by
  by_cases eq : old = new
  · refine ⟨g, by simp [Graph.replaceBy, eq, pure, Except.pure], .unchanged valid ?_⟩
    intro v
    have unchanged : ∀ t : Option ValueId, (if t = some old then some new else t) = t := by
      intro t
      split
      next equal => rw [equal, eq]
      next => rfl
    simp [unchanged]
  · obtain ⟨d, hit⟩ := value_of_lt here
    have known : ∀ slot ∈ g.usesOf old, g.IsSlot slot := fun slot mem =>
      ((valid.tracked.mem_usesOf old slot).1 mem).1
    obtain ⟨after, folded, _⟩ : ∃ after,
        (g.usesOf old).foldlM (fun graph slot => graph.setUse slot (some new)) g = .ok after ∧
          g.SameValues after ∧ after.Consistent := by
      refine foldlM_succeeds (P := fun graph => g.SameValues graph ∧ graph.Consistent) _ ?_ ⟨.refl g, valid⟩
      rintro pre slot mem ⟨values, h⟩
      obtain ⟨v, isIn⟩ := known slot mem
      rw [← values.slots v] at isIn
      obtain ⟨next, moved⟩ := setUse_of_lt (h.owned v slot isIn) (some new) (fun w points => h.held_lt points)
        (fun w equal => by cases equal; rw [values.size]; exact there)
      have redirected := setUse_redirected moved
      exact ⟨next, moved, values.trans redirected.sameValues, redirected.consistent h ⟨v, isIn⟩⟩
    have done : g.replaceBy old new = .ok after := by
      unfold Graph.replaceBy
      rw [if_neg eq, hit]
      rw [usesOf_of_value hit] at folded
      exact folded
    obtain ⟨values, held⟩ := foldlM_setUse folded
    refine ⟨after, done, valid.replaceBy done, values.size, values.kind?, values.ty?, values.limit?, ?_⟩
    intro v
    rw [operandsOf, values.slots v, operandsOf, map_map]
    refine map_congr_left ?_
    intro slot isIn
    have points : slot ∈ g.usesOf old ↔ g.held slot = some old := by
      rw [valid.tracked.mem_usesOf old slot]
      exact and_iff_right ⟨v, isIn⟩
    simp only [held slot, Function.comp, points]

namespace Removed
variable {g t : Graph} {user : ValueId} {gone : UseId → Prop} [DecidablePred gone]

section
variable (removed : g.Removed t user gone)
include removed

theorem kind? (v : ValueId) : t.kind? v = g.kind? v := by
  rw [kind?_eq_bare, kind?_eq_bare, removed.bare v]
  split
  · rw [Option.map_map]
    rfl
  · rfl

theorem ty? (v : ValueId) : t.ty? v = g.ty? v := by
  rw [Graph.ty?, Graph.ty?, removed.bare v]
  split
  · rw [Option.map_map]
    rfl
  · rfl

theorem limit? (v : ValueId) : t.limit? v = g.limit? v := by
  rw [Graph.limit?, Graph.limit?, removed.bare v]
  split
  · rw [Option.map_map]
    rfl
  · rfl

theorem operandsOf (valid : g.Consistent) (v : ValueId) : t.operandsOf v =
      if v = user then ((g.slots v).filter (¬ gone ·)).map g.held else g.operandsOf v := by
  rw [Graph.operandsOf, removed.slots v]
  split
  next eq =>
    subst eq
    refine map_congr_left ?_
    intro s mem
    have kept : ¬ gone s := by simpa using (mem_filter.1 mem).2
    rw [removed.held s, if_neg fun both => kept both.2]
  next ne =>
    refine map_congr_left ?_
    intro s mem
    rw [removed.held s, if_neg]
    rintro ⟨isIn, _⟩
    exact ne (valid.eq_of_mem mem isIn)

end

end Removed

private theorem filter_map_held (ls : List UseId) (dest : Option ValueId) :
    (ls.filter (¬ g.held · = dest)).map g.held = (ls.map g.held).filter (· ≠ dest) := by
  rw [filter_map]
  rfl

theorem removeValue_rewired (valid : g.Consistent) (done : g.removeValue user dest = .ok t) :
    g.Rewired t fun v old => if v = user then old.filter (· ≠ dest) else old := by
  have removed := removeValue_removed (valid.nodup user) done
  refine ⟨removed.consistent valid, removed.size, removed.kind?, removed.ty?, removed.limit?, ?_⟩
  intro v
  rw [removed.operandsOf valid v]
  split
  · rw [filter_map_held]
    rfl
  · rfl

private def Emptiable (g : Graph) (slots : List UseId) : Prop :=
  (∀ slot ∈ slots, (g.owner slot).isSome) ∧
    ∀ slot v, g.held slot = some v → v.index < g.values.size

private theorem Emptiable.setUse_none (fit : Emptiable g ls) (mem : slot ∈ ls) :
    ∃ t, g.setUse slot none = .ok t ∧ Emptiable t ls := by
  obtain ⟨user, owner⟩ := Option.isSome_iff_exists.1 (fit.1 slot mem)
  obtain ⟨t, moved⟩ := setUse_of_lt owner none (fit.2 slot) (by simp)
  have redirected := setUse_redirected moved
  refine ⟨t, moved, ?_, ?_⟩
  · intro other inList
    rw [redirected.owner other]
    exact fit.1 other inList
  · intro other v h
    rw [redirected.held other] at h
    rw [redirected.size]
    split at h
    · cases h
    · exact fit.2 other v h

private theorem Emptiable.eraseSlots {all : List UseId} (fit : Emptiable g all) (subset : ∀ slot ∈ ls, slot ∈ all)
    (dest : Option ValueId) : ∃ kept t, g.eraseSlots dest ls = .ok (kept, t) ∧
      t.values.size = g.values.size := by
  induction ls generalizing g with
  | nil => exact ⟨[], g, rfl, rfl⟩
  | cons slot tl ih =>
    have inRest : ∀ other ∈ tl, other ∈ all := fun other mem =>
      subset other (mem_cons_of_mem _ mem)
    obtain ⟨user, owner⟩ := Option.isSome_iff_exists.1 (fit.1 slot (subset slot (mem_cons_self ..)))
    rw [Graph.eraseSlots, getUse_of_owner owner]
    simp only [bind, Except.bind]
    by_cases hit : g.held slot = dest
    · obtain ⟨mid, moved, fitting⟩ := fit.setUse_none (subset slot (mem_cons_self ..))
      obtain ⟨kept, t, erased, size⟩ := ih fitting inRest
      rw [if_pos hit]
      exact ⟨kept, t, by simp only [moved, erased], size.trans (setUse_redirected moved).size⟩
    · obtain ⟨kept, t, erased, size⟩ := ih fit inRest
      rw [if_neg hit]
      exact ⟨slot :: kept, t, by simp only [erased]; rfl, size⟩

section
variable (valid : g.Consistent)
include valid

private theorem Consistent.emptiable (v : ValueId) : Emptiable g (g.slots v) :=
  ⟨fun slot mem => by rw [valid.owned v slot mem]; rfl, fun _ _ h => valid.held_lt h⟩

theorem Consistent.removeValue_rewired (into : user.index < g.values.size) (target : Option ValueId) :
    ∃ t, g.removeValue user target = .ok t ∧
      g.Rewired t fun v old => if v = user then old.filter (· ≠ target) else old := by
  obtain ⟨data, hit⟩ := value_of_lt into
  obtain ⟨kept, mid, erased, size⟩ :=
    (valid.emptiable user).eraseSlots (fun _ mem => mem) target
  obtain ⟨t, upd⟩ := modify_of_lt (size ▸ into : user.index < mid.values.size)
    fun v => { v with operands := kept }
  have done : g.removeValue user target = .ok t := by
    unfold Graph.removeValue
    rw [slots_of_value hit] at erased
    simp only [hit, bind, Except.bind, erased]
    exact upd
  exact ⟨t, done, Graph.removeValue_rewired valid done⟩

theorem Consistent.dropOperands_rewired (into : user.index < g.values.size) :
    ∃ t, g.dropOperands user = .ok t ∧ g.Rewired t fun v old => if v = user then [] else old := by
  obtain ⟨data, hit⟩ := value_of_lt into
  obtain ⟨mid, emptied⟩ := modify_of_lt into fun v => { v with operands := [] }
  obtain ⟨_, uses, size, _⟩ := modify_eq_ok emptied
  have fit : Emptiable mid (g.slots user) := by
    have fit := valid.emptiable user
    unfold Emptiable owner held at fit ⊢
    rw [uses, size]
    exact fit
  obtain ⟨t, folded, _⟩ : ∃ t,
      (g.slots user).foldlM (fun graph slot => graph.setUse slot none) mid = .ok t ∧
        Emptiable t (g.slots user) := by
    refine foldlM_succeeds (P := fun graph => Emptiable graph (g.slots user)) _ ?_ fit
    intro pre slot mem fitting
    exact fitting.setUse_none mem
  have done : g.dropOperands user = .ok t := by
    unfold Graph.dropOperands
    rw [slots_of_value hit] at folded
    simp only [hit, bind, Except.bind, emptied]
    exact folded
  have removed := dropOperands_removed done
  refine ⟨t, done, removed.consistent valid, removed.size, removed.kind?, removed.ty?, removed.limit?, ?_⟩
  intro v
  have all : ∀ ls : List UseId, ls.filter (fun _ => decide ¬ True) = [] := by simp
  rw [removed.operandsOf valid v, all]
  rfl

private theorem Consistent.foldlM_removeValue {users : List ValueId}
    (into : ∀ user ∈ users, user.index < g.values.size) (dest : Option ValueId) :
    ∃ t, users.foldlM (fun g user => g.removeValue user dest) g = .ok t ∧
      g.Rewired t fun v old => if v ∈ users then old.filter (· ≠ dest) else old := by
  induction users generalizing g with
  | nil => exact ⟨g, rfl, .unchanged valid fun _ => by simp⟩
  | cons user tl ih =>
    obtain ⟨mid, removed, first⟩ := valid.removeValue_rewired (into user (mem_cons_self ..)) dest
    obtain ⟨t, folded, second⟩ := ih first.consistent fun other mem =>
      first.size ▸ into other (mem_cons_of_mem _ mem)
    refine ⟨t, by rw [foldlM_cons, removed]; exact folded, (first.trans second).congr ?_⟩
    intro v
    by_cases eq : v = user
    · by_cases again : user ∈ tl
      · simp [eq, again]
      · simp [eq, again]
    · simp [eq]

/-- The users of a value are those that have it as an operand. -/
theorem Consistent.users (into : v.index < g.values.size) :
    ∃ users, g.users v = .ok users ∧ ∀ w, w ∈ users ↔ some v ∈ g.operandsOf w := by
  obtain ⟨d, hit⟩ := value_of_lt into
  have uses := usesOf_of_value hit
  have isIn : ∀ slot ∈ d.uses, ∃ user, slot ∈ g.slots user ∧ g.held slot = some v := by
    intro slot mem
    obtain ⟨⟨user, inSlots⟩, h⟩ := (valid.tracked.mem_usesOf v slot).1 (uses ▸ mem)
    exact ⟨user, inSlots, h⟩
  have owners : d.uses.mapM (fun slot => (·.user) <$> g.getUse slot) =
      .ok (d.uses.map fun slot => (g.owner slot).getD v) := by
    refine mapM_eq_ok ?_
    intro slot mem
    obtain ⟨user, inSlots, _⟩ := isIn slot mem
    rw [valid.getUse inSlots, valid.owned user slot inSlots]
    rfl
  refine ⟨(d.uses.map fun slot => (g.owner slot).getD v).eraseDups, ?_, ?_⟩
  · unfold Graph.users
    simp only [hit, bind, Except.bind, owners]
    rfl
  · intro w
    rw [mem_eraseDups, mem_map]
    constructor
    · rintro ⟨slot, mem, rfl⟩
      obtain ⟨user, inSlots, h⟩ := isIn slot mem
      rw [valid.owned user slot inSlots]
      exact mem_map.2 ⟨slot, inSlots, h⟩
    · intro mem
      obtain ⟨slot, inSlots, h⟩ := mem_map.1 mem
      refine ⟨slot, uses ▸ (valid.tracked.mem_usesOf v slot).2 ⟨⟨w, inSlots⟩, h⟩, ?_⟩
      rw [valid.owned w slot inSlots]
      rfl

theorem Consistent.removeFromUsers_rewired (into : v.index < g.values.size) :
    ∃ t, g.removeFromUsers v = .ok t ∧ g.Rewired t fun _ old => old.filter (· ≠ some v) := by
  obtain ⟨users, read, isUser⟩ := valid.users into
  obtain ⟨t, folded, wired⟩ := valid.foldlM_removeValue
    (fun user (mem : user ∈ users) => lt_of_mem_operandsOf ((isUser user).1 mem)) (some v)
  refine ⟨t, bind_eq_ok.2 ⟨users, read, folded⟩, wired.congr ?_⟩
  intro w
  split
  · rfl
  next absent =>
    rw [filter_eq_self.2]
    intro dest mem
    simpa using fun equal : dest = some v => absent ((isUser w).2 (equal ▸ mem))

end

structure Remade (g after : Graph) (v : ValueId) (f : Value → Value) : Prop where
  consistent : after.Consistent
  size : after.values.size = g.values.size
  bare : ∀ w, after.bare w = if w = v then (g.bare w).map f else g.bare w
  operandsOf : ∀ w, after.operandsOf w = g.operandsOf w

theorem modify_remade (valid : g.Consistent)
    (uses : ∀ d list, { f d with uses := list } = f { d with uses := list })
    (kept : ∀ d, (f d).uses = d.uses ∧ (f d).operands = d.operands ∧
      (f d).operandLimit = d.operandLimit) (done : g.modify v f = .ok t) : g.Remade t v f := by
  obtain ⟨_, sameUses, size, values⟩ := modify_eq_ok done
  have bares : ∀ w, t.bare w = if w = v then (g.bare w).map f else g.bare w := by
    intro w
    unfold Graph.bare
    rw [values w]
    split
    · rw [Option.map_map, Option.map_map]
      exact congrArg (fun change => g.values[w.index]?.map change) (funext fun d => uses d [])
    · rfl
  have lists : ∀ w, t.usesOf w = g.usesOf w := by
    intro w
    unfold usesOf
    rw [values w]
    split
    · rw [Option.map_map]
      exact congrArg (fun read => (g.values[w.index]?.map read).getD []) (funext fun d => (kept d).1)
    · rfl
  have ls : ∀ w, t.slots w = g.slots w := by
    intro w
    rw [Graph.slots, bares w, Graph.slots]
    split
    · rw [Option.map_map]
      exact congrArg (fun read => ((g.bare w).map read).getD []) (funext fun d => (kept d).2.1)
    · rfl
  have held : ∀ s, t.held s = g.held s := fun s => by rw [Graph.held, sameUses, Graph.held]
  refine ⟨⟨?_, ?_, ?_, ?_⟩, size, bares, ?_⟩
  · intro w s mem
    rw [owner, sameUses]
    exact valid.owned w s (ls w ▸ mem)
  · intro w
    rw [ls w]
    exact valid.nodup w
  · intro w d lim hit bounded
    rw [bares w] at hit
    split at hit
    · obtain ⟨pre, read, rfl⟩ := Option.map_eq_some_iff.1 hit
      rw [(kept pre).2.1]
      exact valid.limited w pre lim read ((kept pre).2.2 ▸ bounded)
    · exact valid.limited w d lim hit bounded
  · rw [isSlot_congr ls]
    exact tracks_congr sameUses lists valid.tracked
  · intro w
    rw [Graph.operandsOf, ls w, Graph.operandsOf]
    exact map_congr_left fun s _ => held s

theorem Remade.limit? (remade : g.Remade t v f) (kept : ∀ d, (f d).operandLimit = d.operandLimit)
    (w : ValueId) : t.limit? w = g.limit? w := by
  rw [Graph.limit?, remade.bare w, Graph.limit?]
  split
  · rw [Option.map_map]
    exact congrArg (fun read => (g.bare w).map read) (funext kept)
  · rfl

theorem setKind_rekinded (valid : g.Consistent) (done : g.setKind v k = .ok t) : g.Rekinded t v k := by
  have remade : g.Remade t v fun d => { d with kind := k } :=
    modify_remade valid (fun _ _ => rfl) (fun _ => ⟨rfl, rfl, rfl⟩) done
  have inside := (modify_eq_ok done).1
  refine ⟨remade.consistent, remade.size, ?_, ?_, remade.limit? fun _ => rfl, remade.operandsOf⟩
  · intro w
    rw [kind?_eq_bare, remade.bare w, kind?_eq_bare]
    split
    next eq =>
      obtain ⟨d, hit⟩ := Option.isSome_iff_exists.1 (bare_isSome.2 (eq ▸ inside))
      simp [hit]
    next => rfl
  · intro w
    rw [Graph.ty?, remade.bare w, Graph.ty?]
    split
    · rw [Option.map_map]
      rfl
    · rfl

theorem Consistent.setKind_rekinded (valid : g.Consistent) (inside : v.index < g.values.size) (kind : Kind) :
    ∃ t, g.setKind v kind = .ok t ∧ g.Rekinded t v kind := by
  obtain ⟨t, done⟩ := modify_of_lt inside fun d => { d with kind }
  exact ⟨t, done, Graph.setKind_rekinded valid done⟩

theorem Consistent.modifyBlock_rekinded (valid : g.Consistent) (hit : g.kind? v = some (.block d))
    (f : Block → Block) : ∃ t, g.modifyBlock v f = .ok t ∧ g.Rekinded t v (.block (f d)) := by
  obtain ⟨t, done, rekinded⟩ := valid.setKind_rekinded (lt_of_kind? hit) (.block (f d))
  refine ⟨t, ?_, rekinded⟩
  unfold modifyBlock
  rw [kind_eq_ok.2 hit]
  exact done

theorem Consistent.modifyInst_rekinded (valid : g.Consistent) {d : Inst} (hit : g.kind? v = some (.inst d))
    (f : Inst → Inst) : ∃ t, g.modifyInst v f = .ok t ∧ g.Rekinded t v (.inst (f d)) := by
  obtain ⟨t, done, rekinded⟩ := valid.setKind_rekinded (lt_of_kind? hit) (.inst (f d))
  refine ⟨t, ?_, rekinded⟩
  unfold modifyInst
  rw [kind_eq_ok.2 hit]
  exact done

private theorem Consistent.setOperands_rewired {g : Graph} (valid : g.Consistent) {user : ValueId}
    {dests : List (Option ValueId)} (s0 : Nat)
    (fit : s0 + dests.length ≤ (g.operandsOf user).length)
    (there : ∀ v, some v ∈ dests → v.index < g.values.size) :
    ∃ t, (dests.zipIdx s0).foldlM (fun g dest => g.setOperand user dest.2 dest.1) g = .ok t ∧
      g.Rewired t fun v old =>
        if v = user then old.take s0 ++ dests ++ old.drop (s0 + dests.length) else old := by
  induction dests generalizing g s0 with
  | nil => exact ⟨g, rfl, .unchanged valid fun _ => by simp⟩
  | cons dest tl ih =>
    rw [length_cons] at fit
    obtain ⟨mid, moved, first⟩ := valid.setOperand_rewired user s0 dest (by omega)
      (fun v equal => there v (by simp [equal]))
    have length : (mid.operandsOf user).length = (g.operandsOf user).length := by
      simp [first.operandsOf user]
    obtain ⟨t, folded, second⟩ := ih first.consistent (s0 + 1) (by omega)
      (fun v mem => first.size ▸ there v (mem_cons_of_mem _ mem))
    refine ⟨t, ?_, (first.trans second).congr ?_⟩
    · rw [zipIdx_cons, foldlM_cons, moved]
      exact folded
    · intro v
      by_cases eq : v = user
      · subst eq
        have into : s0 < (g.operandsOf v).length := by omega
        simp only [if_pos]
        rw [take_succ_eq_append_getElem (by simpa using into), length_cons]
        simp only [take_set, getElem_set_self, drop_set, append_assoc]
        rw [if_pos (by omega), set_eq_of_length_le (length_take_le _ _)]
        simp [Nat.add_comm, Nat.add_left_comm]
      · simp [eq]

def moved {α : Type} [BEq α] (items : List α) (item : α) (position : Nat) : List α :=
  match items.findIdx? (· == item) with
  | none => items
  | some index =>
    (items.eraseIdx index).insertIdx (min position (items.eraseIdx index).length) item

theorem perm_moved [BEq α] [LawfulBEq α] (items : List α) (item : α) (pos : Nat) :
    (moved items item pos).Perm items := by
  unfold moved
  split
  · exact .refl items
  next i found =>
    obtain ⟨into, hit, _⟩ := findIdx?_eq_some_iff_getElem.1 found
    have eq : items[i] = item := beq_iff_eq.1 hit
    refine (perm_insertIdx item _ (Nat.min_le_right ..)).trans ?_
    rw [← eq]
    exact getElem_cons_eraseIdx_perm into

theorem moved_end [BEq α] [LawfulBEq α] {items : List α} {item : α} (mem : item ∈ items) :
    moved items item items.length = items.erase item ++ [item] := by
  have hit : items.findIdx? (· == item) = some (items.idxOf item) :=
    findIdx?_eq_some_of_exists ⟨item, mem, beq_self_eq_true item⟩
  have shorter := length_eraseIdx_le items (items.idxOf item)
  rw [moved, hit, erase_eq_eraseIdx_of_idxOf rfl]
  dsimp only
  rw [Nat.min_eq_right shorter, insertIdx_length_self]

theorem Consistent.moveBlock_rewired (valid : g.Consistent) {fn : ValueId} (into : fn.index < g.values.size)
    (b : ValueId) (pos : Nat) :
    ∃ t, g.moveBlock fn b pos = .ok t ∧
      g.Rewired t fun v old => if v = fn then moved old (some b) pos else old := by
  have perm := perm_moved (g.operandsOf fn) (some b) pos
  unfold Graph.moveBlock
  simp only [valid.operands into, bind, Except.bind]
  split
  next missing =>
    refine ⟨g, rfl, .unchanged valid ?_⟩
    intro v
    split
    next eq => rw [moved, eq, missing]
    next => rfl
  next i hit =>
    have unfolded : moved (g.operandsOf fn) (some b) pos = ((g.operandsOf fn).eraseIdx i).insertIdx
          (min pos ((g.operandsOf fn).eraseIdx i).length) (some b) := by
      rw [moved, hit]
    rw [← unfolded]
    obtain ⟨t, folded, wired⟩ := @Consistent.setOperands_rewired g valid fn _ 0
      (Nat.le_of_eq (by rw [perm.length_eq, Nat.zero_add]))
      (fun v mem => valid.operand_lt (perm.mem_iff.1 mem))
    refine ⟨t, folded, wired.congr ?_⟩
    intro v
    split
    next eq => simp [eq, perm.length_eq]
    next => rfl

end Graph
end Midend
