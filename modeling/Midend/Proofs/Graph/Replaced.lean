import Midend.Proofs.Graph.Operands
import Midend.Proofs.Graph.Reachable

/-! What becomes of all data of a graph when a value is replaced, taken from its users or loses its operands: the
order of the slots and of the use lists included. -/
namespace Midend.Graph
open List
variable {g mid t : Graph} {v user old new : ValueId}

/-- Replacement as a loop: while the value has uses, the first of them is pointed at the other value. It gives no graph
if that takes more rounds than are given. -/
def drain (old new : ValueId) : Nat → Graph → Except Fault (Option Graph)
  | 0, g => do
    return if (← g.value old).uses = [] then some g else none
  | rounds + 1, g => do
    match (← g.value old).uses with
    | [] => return some g
    | slot :: _ => drain old new rounds (← g.setUse slot (some new))

/-- All data of a graph but the slots that values list, the use lists and what the slots point at is the same, and these
have changed as told. -/
structure Changed (g after : Graph) (operands uses : ValueId → List UseId → List UseId) (pointed : Use → Option ValueId) :
    Prop where
  value : ∀ v, after.value v =
    (fun data => { data with operands := operands v data.operands, uses := uses v data.uses }) <$> g.value v
  getUse : ∀ slot, after.getUse slot = (fun use => { use with value := pointed use }) <$> g.getUse slot

/-- The readings of a graph tell all of its data. -/
private theorem changed_of_readings {operands uses : ValueId → List UseId → List UseId} {pointed : Use → Option ValueId}
    (size : t.values.size = g.values.size) (slotCount : t.uses.size = g.uses.size)
    (bare : ∀ v, t.bare v = (g.bare v).map fun d => { d with operands := operands v d.operands })
    (usesOf : ∀ v, v.index < g.values.size → t.usesOf v = uses v (g.usesOf v))
    (owner : ∀ s, t.owner s = g.owner s) (held : ∀ s user, g.owner s = some user → t.held s = pointed ⟨g.held s, user⟩) :
    g.Changed t operands uses pointed := by
  refine ⟨fun v => ?_, fun slot => ?_⟩
  · by_cases into : v.index < g.values.size
    · obtain ⟨d, hit⟩ := value_of_lt into
      obtain ⟨data', found'⟩ := value_of_lt (size ▸ into)
      have eq := bare v
      rw [bare_eq_some hit, bare_eq_some found', Option.map_some, Option.some.injEq] at eq
      have list := usesOf v into
      rw [usesOf_of_value hit, usesOf_of_value found'] at list
      rw [hit, found']
      cases data'
      cases eq
      cases list
      rfl
    · have outside := Array.getElem?_eq_none (Nat.le_of_not_lt into)
      have outside' := Array.getElem?_eq_none (Nat.le_of_not_lt (size ▸ into))
      simp [value, outside, outside', size]
  · cases owned : g.owner slot with
    | some user =>
      rw [getUse_of_owner owned, getUse_of_owner ((owner slot).trans owned), held slot user owned]
      rfl
    | none =>
      have outside : g.uses[slot.index]? = none := Option.map_eq_none_iff.1 owned
      have outside' : t.uses[slot.index]? = none := Option.map_eq_none_iff.1 ((owner slot).trans owned)
      simp [getUse, outside, outside', slotCount]

/-- The loop empties the use list from its front in as many rounds as it has entries, and puts them at the end of the
other list one after the other. -/
private theorem Consistent.drain_eq (valid : g.Consistent) (apart : old ≠ new) (here : old.index < g.values.size)
    {ls : List UseId} (isIn : g.usesOf old = ls)
    (done : ls.foldlM (fun g slot => g.setUse slot (some new)) g = .ok t) :
    (∀ rounds, g.drain old new rounds = .ok (if ls.length ≤ rounds then some t else none)) ∧
      ∀ v, t.usesOf v = if v = old then [] else if v = new then g.usesOf v ++ ls else g.usesOf v := by
  obtain ⟨d, hit⟩ := value_of_lt here
  have uses := (usesOf_of_value hit).symm.trans isIn
  induction ls generalizing g d with
  | nil =>
    cases done
    refine ⟨fun rounds => ?_, fun v => ?_⟩
    · cases rounds <;> simp [drain, hit, uses, bind, Except.bind, pure, Except.pure]
    · split
      next eq => rw [eq, isIn]
      next => simp
  | cons slot tl ih =>
    obtain ⟨mid, first, done⟩ := bind_eq_ok.1 done
    have moved := setUse_redirected first
    obtain ⟨known, h⟩ := (valid.tracked.mem_usesOf old slot).1 (isIn ▸ mem_cons_self)
    have fresh := nodup_cons.1 (isIn ▸ valid.tracked.nodup old)
    have other : some old ≠ some new := fun eq => apart (Option.some.inj eq)
    -- The slot stands once in the list, so that the loop goes on with the rest of it.
    have shorter : mid.usesOf old = tl := by
      rw [moved.usesOf old, h, if_neg other, if_pos rfl, if_neg other.symm, append_nil, isIn]
      simpa using fun s mem (eq : s = slot) => fresh.1 (eq ▸ mem)
    obtain ⟨data', found'⟩ := value_of_lt (moved.size ▸ here)
    obtain ⟨drained, lists⟩ := ih (moved.consistent valid known) (moved.size ▸ here) shorter done data' found'
      ((usesOf_of_value found').symm.trans shorter)
    refine ⟨fun rounds => ?_, fun v => ?_⟩
    · cases rounds with
      | zero => simp [drain, hit, uses, bind, Except.bind, pure, Except.pure]
      | succ rounds => simpa [drain, hit, uses, bind, Except.bind, first] using drained rounds
    · rw [lists v, moved.usesOf v, h, if_neg other]
      split
      · rfl
      next differs =>
        rw [if_neg fun eq => differs (Option.some.inj eq).symm]
        split
        next eq => simp [eq]
        next others => simp [Ne.symm others]

/-- In every graph that the operations build, a value can be replaced by another one. By itself it changes nothing.
Otherwise the loop over its use list ends, after one round for each entry: every slot that pointed at the value, and no
other, points at the other value from its old place, and the use list moves to the end of the other one. -/
theorem replaceBy_exact (built : g.Built) (here : old.index < g.values.size) (there : new.index < g.values.size) :
    ∃ after, g.replaceBy old new = .ok after ∧ (old = new → after = g) ∧
      (old ≠ new → (∀ rounds, g.drain old new rounds =
          .ok (if (g.usesOf old).length ≤ rounds then some after else none)) ∧
        g.Changed after (fun _ slots => slots)
          (fun v uses => if v = old then [] else if v = new then uses ++ g.usesOf old else uses)
          (fun use => if use.value = some old then some new else use.value) ∧
        ∀ v, v.index < g.values.size →
          after.operands v = (List.map fun t => if t = some old then some new else t) <$> g.operands v) := by
  have valid := built.consistent
  obtain ⟨after, done, rewired⟩ := valid.replaceBy_rewired here there
  refine ⟨after, done, fun same => ?_, fun apart => ?_⟩
  · unfold replaceBy at done
    rw [if_pos same] at done
    exact (pure_eq_ok.1 done).symm
  have folded := replaceBy_eq_ok apart done
  obtain ⟨drained, lists⟩ := valid.drain_eq apart here rfl folded
  obtain ⟨same, held⟩ := foldlM_setUse folded
  refine ⟨drained, changed_of_readings same.size same.slotCount (fun v => ?_) (fun v _ => ?_) same.owner fun s owner owned => ?_,
    fun v inside => ?_⟩
  · rw [same.bare v]
    exact Option.map_id'.symm
  · rw [lists v]
  · simp only [held s, valid.mem_usesOf]
  · rw [valid.operands inside, rewired.consistent.operands (rewired.size ▸ inside), rewired.operandsOf v]
    rfl

/-- A value that refers to itself and to another one, by which it is replaced. -/
theorem replaceBy_exact_self : ∃ g after : Graph, g.Built ∧ g.usesOf ⟨1⟩ = [⟨1⟩] ∧ g.replaceBy ⟨0⟩ ⟨1⟩ = .ok after ∧
    g.drain ⟨0⟩ ⟨1⟩ 2 = .ok (some after) ∧ after.usesOf ⟨1⟩ = [⟨1⟩, ⟨0⟩, ⟨2⟩] := by
  have itself := Built.twoValues.step (@Step.addOperand _ ⟨0⟩ (some ⟨0⟩) _ _ rfl)
  have other := itself.step (@Step.addOperand _ ⟨0⟩ (some ⟨1⟩) _ _ rfl)
  have built := other.step (@Step.addOperand _ ⟨1⟩ (some ⟨0⟩) _ _ rfl)
  obtain ⟨after, done, _, moved⟩ := @replaceBy_exact _ ⟨0⟩ ⟨1⟩ built (by decide) (by decide)
  refine ⟨_, after, built, rfl, done, (moved (by decide)).1 2, ?_⟩
  cases done
  rfl

structure Thinned (g middle : Graph) (v : ValueId) : Prop where
  size : middle.values.size = g.values.size
  slotCount : middle.uses.size = g.uses.size
  owner : ∀ s, middle.owner s = g.owner s
  held : ∀ s, middle.held s = g.held s ∨ g.held s = some v ∧ middle.held s = none
  bare : ∀ w, middle.bare w =
    (g.bare w).map fun data => { data with operands := data.operands.filter fun s => middle.held s = g.held s }
  usesOf : ∀ w, middle.usesOf w = (g.usesOf w).filter fun s => middle.held s = g.held s

theorem Thinned.refl (g : Graph) (v : ValueId) : g.Thinned g v := by
  refine ⟨rfl, rfl, fun _ => rfl, fun _ => .inl rfl, fun w => ?_, fun w => ?_⟩
  · simp
  · simp

theorem Thinned.slots (thinned : g.Thinned mid v) (w : ValueId) :
    mid.slots w = (g.slots w).filter fun s => mid.held s = g.held s := by
  rw [Graph.slots, thinned.bare w, Graph.slots]
  cases g.bare w with
  | none => rfl
  | some d => rfl

/-- Taking slots from one user keeps all but slots that hold the value. -/
theorem Thinned.removeValue (valid : g.Consistent) (thinned : g.Thinned mid v) (kept : mid.Consistent)
    (done : mid.removeValue user (some v) = .ok t) : g.Thinned t v := by
  have gone := removeValue_removed (kept.nodup user) done
  have still : ∀ s, t.held s = g.held s ↔
      mid.held s = g.held s ∧ ¬ (s ∈ mid.slots user ∧ mid.held s = some v) := by
    intro s
    rw [gone.held s]
    split
    next emptied =>
      have was : g.held s = some v := by
        rcases thinned.held s with eq | ⟨was, _⟩
        · exact eq.symm.trans emptied.2
        · exact was
      simp [was, emptied]
    next other => simp [other]
  refine ⟨gone.size.trans thinned.size, gone.slotCount.trans thinned.slotCount,
    fun s => (gone.owner s).trans (thinned.owner s), fun s => ?_, fun w => ?_, fun w => ?_⟩
  · rw [gone.held s]
    split
    next emptied =>
      rcases thinned.held s with eq | ⟨was, _⟩
      · exact .inr ⟨eq.symm.trans emptied.2, rfl⟩
      · exact .inr ⟨was, rfl⟩
    next => exact thinned.held s
  · rw [gone.bare w, thinned.bare w]
    cases hit : g.bare w with
    | none => simp
    | some d =>
      have ls : g.slots w = d.operands := by simp [Graph.slots, hit]
      have isIn : ∀ s ∈ d.operands, mid.held s = g.held s → s ∈ mid.slots w := by
        intro s mem eq
        rw [thinned.slots w, ls]
        exact mem_filter.2 ⟨mem, by simpa using eq⟩
      split
      next equal =>
        subst equal
        simp only [Option.map_some, List.filter_filter, Option.some.injEq]
        congr 1
        exact filter_congr fun s mem => by
          have := isIn s mem
          simp only [still s]
          grind
      next differs =>
        simp only [Option.map_some, Option.some.injEq]
        congr 1
        refine filter_congr fun s mem => ?_
        have elsewhere : s ∉ mid.slots user := fun there =>
          differs (valid.eq_of_mem (ls ▸ mem) (mem_filter.1 (thinned.slots user ▸ there)).1)
        simp [still s, elsewhere]
  · rw [gone.usesOf _ kept.tracked (fun s mem => ⟨user, mem⟩) w, thinned.usesOf w, List.filter_filter]
    exact filter_congr fun s _ => by simp only [still s]; grind

/-- Taking a value from its users takes exactly the slots that point at it from the lists of their owners. -/
private theorem Consistent.removeFromUsers_changed (valid : g.Consistent) (here : v.index < g.values.size) :
    ∃ t, g.removeFromUsers v = .ok t ∧
      g.Changed t (fun _ ls => ls.filter (g.held · ≠ some v)) (fun w uses => if w = v then [] else uses)
        (fun use => if use.value = some v then none else use.value) := by
  obtain ⟨t, done, wired⟩ := valid.removeFromUsers_rewired here
  obtain ⟨users, _, folded⟩ := bind_eq_ok.1 done
  obtain ⟨_, thinned⟩ : t.Consistent ∧ g.Thinned t v := by
    refine foldlM_keeps (P := fun mid => mid.Consistent ∧ g.Thinned mid v) users ?_ ⟨valid, .refl g v⟩ folded
    rintro pre user _ next ⟨kept, thinned⟩ removed
    exact ⟨kept.removeValue removed, thinned.removeValue valid kept removed⟩
  -- A slot that still points at the value would still be listed, but no operand is the value.
  have still : ∀ s, t.held s = g.held s ↔ g.held s ≠ some v := by
    intro s
    refine ⟨fun eq h => ?_, fun other => (thinned.held s).resolve_right fun gone => other gone.1⟩
    obtain ⟨w, isIn⟩ := valid.isSlot_of_held h
    have mem : some v ∈ t.operandsOf w := by
      refine mem_map.2 ⟨s, ?_, eq.trans h⟩
      rw [thinned.slots w]
      exact mem_filter.2 ⟨isIn, by simpa using eq⟩
    simp [wired.operandsOf w] at mem
  refine ⟨t, done, changed_of_readings thinned.size thinned.slotCount (fun w => ?_) (fun w _ => ?_) thinned.owner
    fun s owner _ => ?_⟩
  · simp only [thinned.bare w, still]
  · simp only [thinned.usesOf w, still]
    split
    next eq =>
      subst eq
      simpa using fun s mem => valid.mem_usesOf.1 mem
    next differs =>
      refine filter_eq_self.2 fun s mem => ?_
      simpa [valid.mem_usesOf.1 mem] using differs
  · split
    next h => exact ((thinned.held s).resolve_left fun eq => (still s).1 eq h).2
    next other => exact (still s).2 other

/-- Dropping the operands of a value takes its slots from it and from the use lists. -/
private theorem Consistent.dropOperands_changed (valid : g.Consistent) (here : v.index < g.values.size) :
    ∃ t, g.dropOperands v = .ok t ∧
      g.Changed t (fun w ls => if w = v then [] else ls) (fun _ uses => uses.filter (g.owner · ≠ some v))
        (fun use => if use.user = v then none else use.value) := by
  obtain ⟨t, done, _⟩ := valid.dropOperands_rewired here
  have gone := dropOperands_removed done
  have isIn : ∀ s user, g.IsSlot s → g.owner s = some user → (s ∈ g.slots v ↔ user = v) := by
    rintro s user ⟨w, mem⟩ owned
    cases (valid.owned w s mem).symm.trans owned
    exact ⟨valid.eq_of_mem mem, fun eq => eq ▸ mem⟩
  refine ⟨t, done, changed_of_readings gone.size gone.slotCount (fun w => ?_) (fun w _ => ?_) gone.owner
    fun s user owned => ?_⟩
  · rw [gone.bare w]
    split <;> simp
  · rw [gone.usesOf _ valid.tracked (fun s mem => ⟨v, mem⟩) w]
    refine filter_congr fun s mem => ?_
    obtain ⟨user, slot⟩ := valid.isSlot_of_held (valid.mem_usesOf.1 mem)
    have owned := valid.owned user s slot
    simp [isIn s user ⟨user, slot⟩ owned, owned]
  · rw [gone.held s]
    by_cases known : g.IsSlot s
    · simp [isIn s user known owned]
    · simp [valid.tracked.released s known]

/-- In every graph that the operations build, a value can be taken from its users, and any value can drop its operands.
The first takes exactly the slots that pointed at the value from the lists of their owners and leaves it without uses;
the second takes all slots of the value from it and from the use lists. Whatever stays keeps its order, and nothing else
changes. -/
theorem removal_exact (built : g.Built) (here : v.index < g.values.size) :
    (∃ after, g.removeFromUsers v = .ok after ∧
      g.Changed after (fun _ slots => slots.filter (g.held · ≠ some v)) (fun w uses => if w = v then [] else uses)
        (fun use => if use.value = some v then none else use.value)) ∧
    (∃ after, g.dropOperands v = .ok after ∧
      g.Changed after (fun w slots => if w = v then [] else slots) (fun _ uses => uses.filter (g.owner · ≠ some v))
        (fun use => if use.user = v then none else use.value)) :=
  ⟨built.consistent.removeFromUsers_changed here, built.consistent.dropOperands_changed here⟩

/-- A value that refers to itself, to nothing and to another value. -/
theorem removal_exact_self : ∃ g removed dropped : Graph, g.Built ∧ g.slots ⟨0⟩ = [⟨0⟩, ⟨1⟩, ⟨2⟩, ⟨3⟩] ∧
    g.removeFromUsers ⟨0⟩ = .ok removed ∧ removed.slots ⟨0⟩ = [⟨1⟩, ⟨2⟩] ∧
    g.dropOperands ⟨0⟩ = .ok dropped ∧ dropped.value ⟨1⟩ = .ok ⟨.constInt 1, .int32, none, [], [], none⟩ := by
  have itself := Built.twoValues.step (@Step.addOperand _ ⟨0⟩ (some ⟨0⟩) _ _ rfl)
  have nothing := itself.step (@Step.addOperand _ ⟨0⟩ none _ _ rfl)
  have other := nothing.step (@Step.addOperand _ ⟨0⟩ (some ⟨1⟩) _ _ rfl)
  have built := other.step (@Step.addOperand _ ⟨0⟩ (some ⟨0⟩) _ _ rfl)
  obtain ⟨⟨removed, first, _⟩, dropped, second, changed⟩ := removal_exact (v := ⟨0⟩) built (by decide)
  refine ⟨_, removed, dropped, built, rfl, first, ?_, second, changed.value ⟨1⟩⟩
  cases first
  rfl

end Midend.Graph
