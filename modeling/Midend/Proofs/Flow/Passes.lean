import Midend.Proofs.Flow.Alive

/-! Passes over one function of a module. They change only what belongs to the function, so the
other functions stay as they are, and the function itself stays in order. -/
namespace Midend.Graph
variable {g mid t : Graph} {fs gs : List ValueId} {f entry : ValueId}
  {own : ValueId → Prop}

namespace Beside

theorem trans (first : Beside own g mid) (second : Beside own mid t) : Beside own g t where
  consistent := second.consistent
  kind? v away := (second.kind? v away).trans (first.kind? v away)
  operandsOf v away := (second.operandsOf v away).trans (first.operandsOf v away)
  data v k hit nb notInst := second.data v k (first.data v k hit nb notInst) nb notInst
  refs user b hb held := by
    by_cases mine : own b
    · exact .inr mine
    · have still : mid.isBlock b := by rwa [Graph.isBlock, first.kind? b mine]
      exact (second.refs user b still held).elim (first.refs user b hb) .inr

theorem edged (beside : Beside own g t) (away : ∀ v, g.Part f v → ¬ own v) (edged : g.Edged f) :
    t.Edged f := by
  have kinds : ∀ b ∈ g.layout f, t.kind? b = g.kind? b := fun b mem =>
    beside.kind? b (away b (.block mem))
  refine ⟨?_, ?_⟩
  all_goals rw [beside.layout away]
  · intro b mem dest
    rw [succsOf, kinds b mem, ← succsOf, beside.exits away mem]
    exact edged.succs b mem dest
  · intro b mem source
    rw [predsOf, kinds b mem, ← predsOf, edged.preds b mem source]
    refine and_congr_right fun old => ?_
    rw [beside.exits away old]

end Beside

theorem Edited.beside {bs : ValueId → Block → Block} {insts : ValueId → Inst → Inst}
    {refs : ValueId → List (Option ValueId) → List (Option ValueId)} (edited : g.Edited t bs insts refs)
    (sameBlock : ∀ v, ¬ own v → ∀ data, bs v data = data) (sameInst : ∀ v, ¬ own v → ∀ data, insts v data = data)
    (sameRefs : ∀ v, ¬ own v → refs v (g.operandsOf v) = g.operandsOf v)
    (targets : ∀ user block, some block ∈ t.operandsOf user → some block ∈ g.operandsOf user ∨ own block) :
    Beside own g t where
  consistent := edited.consistent
  kind? v away := by
    rw [edited.kind? v]
    cases g.kind? v with
    | none => rfl
    | some kind => cases kind <;> simp [Kind.edit, sameBlock v away, sameInst v away]
  operandsOf v away := by rw [edited.operandsOf v, sameRefs v away]
  data v kind := edited.data
  refs user block _ held := targets user block held

section Function
variable {home : List ValueId}

theorem MergeStep.part_of (step : MergeStep f entry home g t) {v : ValueId} (part : t.Part f v) :
    g.Part f v := by
  cases part with
  | self => exact .self
  | block mem => exact .block (step.layout_sublist.subset mem)
  | inst mem isIn =>
    cases step with
    | removed _ _ _ gone =>
      obtain ⟨into, other⟩ := gone.mem_layout_iff.1 mem
      exact .inst into (by rwa [gone.code other] at isIn)
    | appended hm =>
      obtain ⟨old, into, wasListed⟩ := hm.origin mem isIn
      exact .inst into wasListed
    | tidied _ tidied =>
      rw [tidied.layout] at mem
      exact .inst mem (by rwa [tidied.sameFlow.code] at isIn)

/-- A step of merging changes nothing outside of its function. -/
theorem MergeStep.beside (step : MergeStep f entry home g t) (tracked : g.Tracked fs gs f entry)
    (parts : ∀ v, g.Part f v → own v) (homes : ∀ block ∈ home, own block) : Beside own g t := by
  have users : ∀ block ∈ g.layout f, ∀ v, ¬ own v → some block ∉ g.operandsOf v := fun block member v away held =>
    away (parts v (tracked.owned block member v held))
  have notFunc : ∀ v, ¬ own v → v ≠ f := fun v away same => away (same ▸ parts f .self)
  cases step with
  | @removed block merging _ _ removed =>
    have member := removed.member
    have inHome := merging.listed block member
    refine removed.edited.beside ?_ (fun _ _ _ => rfl) ?_ fun user target held => .inl (removed.mem_operandsOf held)
    · intro v away data
      have nb : v ≠ block := fun same => away (same ▸ homes block inHome)
      have notSucc : v ∉ g.succsOf block := fun edge => away (homes v (merging.homeSuccs block inHome v edge))
      simp only [withoutBlock, if_neg nb, if_neg notSucc]
    · intro v away
      have kept : ¬ (v = block ∨ v ∈ g.code block) := by
        rintro (same | listed)
        · exact away (same ▸ homes block inHome)
        · exact away (parts v (.inst member listed))
      rw [if_neg kept, if_neg (notFunc v away), List.filter_eq_self]
      intro slot held
      simpa using fun same : slot = some block => users block member v away (same ▸ held)
  | @appended pred block jump hm =>
    have inHome := hm.before.listed block hm.right
    refine hm.edited.beside ?_ ?_ ?_ ?_
    · intro v away data
      have notPred : v ≠ pred := fun same => away (same ▸ parts pred (.block hm.left))
      have nb : v ≠ block := fun same => away (same ▸ parts block (.block hm.right))
      have notSucc : v ∉ g.succsOf block := fun edge => away (homes v (hm.before.homeSuccs block inHome v edge))
      simp only [withAppended, if_neg notPred, if_neg nb, if_neg notSucc]
    · intro v away data
      exact if_neg fun listed => away (parts v (.inst hm.right listed))
    · intro v away
      have kept : ¬ (v = block ∨ v = jump) := by
        rintro (same | same)
        · exact away (same ▸ parts block (.block hm.right))
        · exact away (same ▸ parts jump (.inst hm.left hm.jump_mem))
      rw [if_neg kept, if_neg (notFunc v away), redirected_of_not_mem]
      exact fun held => users block hm.right v away (by simpa using held)
    · intro user target held
      rcases hm.mem_operandsOf held with old | ⟨isPred, _⟩
      · exact .inl old
      · exact .inr (isPred ▸ parts pred (.block hm.left))
  | tidied merging tidied =>
    refine tidied.rewired.edited.beside (fun _ _ _ => rfl) (fun _ _ _ => rfl) ?_ ?_
    · exact fun v away => if_neg (notFunc v away)
    · intro user target held
      rw [tidied.rewired.operandsOf user] at held
      split at held
      · exact .inl (List.mem_filter.1 held).1
      · exact .inl held

theorem MergeSteps.beside (steps : MergeSteps f entry home g t) (tracked : g.Tracked fs gs f entry)
    (ok : g.Consistent) (parts : ∀ v, g.Part f v → own v) (homes : ∀ block ∈ home, own block) :
    Beside own g t ∧ ∀ v, t.Part f v → own v := by
  induction steps with
  | refl =>
    exact ⟨⟨ok, fun _ _ => rfl, fun _ _ => rfl, fun _ _ found _ _ => found, fun _ _ _ held => .inl held⟩, parts⟩
  | tail pre step ih =>
    refine ⟨ih.1.trans (step.beside (MergeSteps.tracked pre tracked) ih.2 homes), ?_⟩
    exact fun v part => ih.2 v (step.part_of part)

theorem Linked.beside (linked : g.Linked t (g.layout f) (g.edges f)) (parts : ∀ v, g.Part f v → own v) :
    Beside own g t := by
  refine Edited.beside linked ?_ (fun _ _ _ => rfl) (fun _ _ => rfl) ?_
  · exact fun v away data => if_neg fun member => away (parts v (.block member))
  · intro user block held
    rw [linked.operandsOf user] at held
    exact .inl held

end Function

namespace Orderly

theorem beside (orderly : g.Orderly fs gs) (member : f ∈ fs)
    (beside : Beside (g.Part f) g t) (whole : t.Whole fs gs f)
    (parts : ∀ v, t.Part f v → g.Part f v) : t.Orderly fs gs := by
  have away : ∀ other ∈ fs, other ≠ f → ∀ v, g.Part other v → ¬ g.Part f v := fun other listed =>
    orderly.apart other listed f member
  have parts' : ∀ other ∈ fs, ∀ v, t.Part other v → g.Part other v := by
    intro other listed v part
    by_cases same : other = f
    · subst same
      exact parts v part
    · exact beside.part_of (away other listed same) part
  refine ⟨orderly.nodup, ?_, ?_⟩
  · intro other listed
    by_cases same : other = f
    · exact same ▸ whole
    · exact beside.whole (away other listed same) (List.Subset.refl _) (List.Subset.refl _) (orderly.whole other listed)
  · intro one listed other listed' different v part part'
    exact orderly.apart one listed other listed' different v (parts' one listed v part) (parts' other listed' v part')

/-- Computing edges keeps a module in order, and is right for the function. -/
theorem computeEdges (orderly : g.Orderly fs gs) (mem : f ∈ fs) :
    ∃ t, g.computeEdges f = .ok t ∧ t.Orderly fs gs ∧ t.Edged f ∧
      (∀ other ∈ fs, g.Edged other → t.Edged other) ∧ ∀ other ∈ fs, Prunes other g t := by
  have whole := orderly.whole f mem
  have wf := whole.toWellFormed
  obtain ⟨t, done, linked⟩ := wf.consistent.computeEdges wf.inside wf.blocks wf.targets
  have eq := linked.sameFlow
  have edged := Linked.edged linked wf.toStructured
  have beside : Beside (g.Part f) g t := Linked.beside linked fun _ part => part
  refine ⟨t, done, orderly.beside mem beside ?_ ?_, edged, ?_, ?_⟩
  · obtain ⟨entry, tracked⟩ := whole.tracked
    refine ⟨eq.wellFormed wf, ⟨entry, eq.tracked wf.toStructured ?_ tracked⟩, eq.housed wf.toStructured whole.housed⟩
    rw [show t.operandsOf f = g.operandsOf f from linked.operandsOf f]
    exact tracked.head
  · intro v part
    cases part with
    | self => exact .self
    | block into => exact .block (eq.layout ▸ into)
    | inst into isIn => exact .inst (eq.layout ▸ into) (by rwa [eq.code] at isIn)
  · intro other isIn edges
    by_cases isFunc : other = f
    · exact isFunc ▸ edged
    · exact beside.edged (orderly.apart other isIn f mem isFunc) edges
  · intro other isIn
    have wf := (orderly.whole other isIn).toStructured
    obtain ⟨entry, tracked⟩ := (orderly.whole other isIn).tracked
    exact .of_same wf tracked.head eq.opcode? (by rw [linked.operandsOf]) (by rw [layout, linked.operandsOf, layout])
      (fun b _ => eq.code b) fun b _ => eq.exits whole.toStructured b

theorem mergeBlocks (orderly : g.Orderly fs gs) (mem : f ∈ fs) (edged : g.Edged f) :
    ∃ upd t, g.mergeBlocks f = .ok (upd, t) ∧ t.Orderly fs gs ∧
      (∀ other ∈ fs, other ≠ f → g.Edged other → t.Edged other) ∧ t.Pruned f ∧
      ∀ other ∈ fs, Prunes other g t := by
  have whole := orderly.whole f mem
  have wf := whole.toWellFormed
  obtain ⟨entry, tracked⟩ := whole.tracked
  obtain ⟨upd, t, done, steps, path⟩ := edged.mergeBlocks wf.toStructured tracked.head
  obtain ⟨beside, parts⟩ := steps.beside tracked wf.consistent (fun _ part => part) fun b isIn => .block isIn
  have formed' := steps.wellFormed wf
  have tracked' := steps.tracked tracked
  refine ⟨upd, t, done, orderly.beside mem beside ?_ parts, ?_, ⟨entry, tracked'.head, path⟩, ?_⟩
  · exact ⟨formed', ⟨entry, tracked'⟩, tracked'.housed formed'.toStructured path⟩
  · exact fun other isIn ne => beside.edged (orderly.apart other isIn f mem ne)
  · intro other isIn
    by_cases eq : other = f
    · exact eq ▸ steps.prunes
    · obtain ⟨_, tracked⟩ := (orderly.whole other isIn).tracked
      exact beside.prunes (orderly.apart other isIn f mem eq) (orderly.whole other isIn).toStructured tracked.head
        steps.prunes.opcode?

end Orderly
end Midend.Graph
