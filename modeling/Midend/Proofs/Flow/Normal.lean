import Midend.Proofs.Flow.Alive
import Midend.Proofs.Flow.Excluded
import Midend.Proofs.Lower.Ordered

/-! The normal form that merging reaches. All blocks that are left can be reached, none of them
could be appended to another one, and the derived edges are those of the terminators, each once. -/
namespace Midend
open List

namespace Graph
variable {g t : Graph} {func entry : ValueId} {home : List ValueId}
variable {b pred : ValueId}

/-- Control goes from one block by a jump to another one and nowhere else, and the other one is
entered from nowhere else. -/
structure Absorbs (g : Graph) (func pred block : ValueId) : Prop where
  different : pred ≠ block
  entered : ∀ source, source ∈ g.layout func ∧ block ∈ g.exits source ↔ source = pred
  leaves : ∀ target ∈ g.exits pred, target = block
  jumps : ∃ jump, g.lastOf pred = some jump ∧ g.opcode? jump = some .jmp

structure Trim (g : Graph) (func entry : ValueId) : Prop where
  succs : ∀ block ∈ g.layout func, (g.succsOf block).Nodup
  preds : ∀ block ∈ g.layout func, (g.predsOf block).Nodup
  held : ∀ block, g.Reaches entry block → ∀ target ∈ g.succsOf block, target ∈ g.layout func

namespace Trim

theorem without (trim : g.Trim func entry) (merging : g.Merging func entry home) (away : b ≠ entry)
    (unreached : ¬ g.Reaches entry b) (removed : g.Without t func b) :
    t.Trim func entry := by
  refine ⟨?_, ?_, ?_⟩
  · intro v mem
    obtain ⟨inLayout, ne⟩ := removed.mem_layout_iff.1 mem
    obtain ⟨d, hit⟩ := merging.blocks v inLayout
    rw [removed.succsOf hit, if_neg ne]
    exact trim.succs v inLayout
  · intro v mem
    obtain ⟨inLayout, _⟩ := removed.mem_layout_iff.1 mem
    obtain ⟨d, hit⟩ := merging.blocks v inLayout
    rw [removed.predsOf hit]
    split
    · exact (trim.preds v inLayout).filter _
    · exact trim.preds v inLayout
  · intro v path dest edge
    obtain ⟨pre, _⟩ := removed.reaches merging.entry_mem away path
    have inLayout := pre.mem_layout merging.toStructured merging.entry_mem
    obtain ⟨d, hit⟩ := merging.blocks v inLayout
    have ne : v ≠ b := fun eq => unreached (eq ▸ pre)
    rw [removed.succsOf hit, if_neg ne] at edge
    have targetListed := trim.held v pre dest edge
    apply removed.mem_layout_iff.2
    refine ⟨targetListed, fun eq => unreached ?_⟩
    exact eq ▸ pre.next ((merging.succs v inLayout dest targetListed).1 edge)

theorem appended {pred b jump : ValueId} (trim : g.Trim func entry)
    (hm : g.Appended t func entry home pred b jump) : t.Trim func entry := by
  have merging := hm.before
  have alone : ∀ source ∈ g.layout func, b ∈ g.succsOf source → source = pred := by
    intro source mem edge
    exact hm.eq_pred mem ((merging.succs source mem b hm.right).1 edge)
  refine ⟨?_, ?_, ?_⟩
  · intro v mem
    obtain ⟨inLayout, ne⟩ := hm.mem_layout_iff.1 mem
    obtain ⟨d, hit⟩ := merging.blocks v inLayout
    rw [hm.succsOf hit, if_neg ne]
    split
    · exact trim.succs b hm.right
    · exact trim.succs v inLayout
  · intro v mem
    obtain ⟨inLayout, ne⟩ := hm.mem_layout_iff.1 mem
    obtain ⟨d, hit⟩ := merging.blocks v inLayout
    rw [hm.predsOf hit ne]
    split
    · exact nodup_eraseDups _
    · exact trim.preds v inLayout
  · intro v path dest edge
    obtain ⟨pre, mem⟩ := hm.reaches path
    obtain ⟨inLayout, ne⟩ := hm.mem_layout_iff.1 mem
    obtain ⟨d, hit⟩ := merging.blocks v inLayout
    rw [hm.succsOf hit, if_neg ne] at edge
    apply hm.mem_layout_iff.2
    split at edge
    next isPred =>
      -- What is left leads on where the appended block led, which was reached through it.
      have blockReached := (isPred ▸ pre).next hm.block_mem_exits
      refine ⟨trim.held b blockReached dest edge, fun eq => ?_⟩
      exact hm.different (alone b hm.right (eq ▸ edge)).symm
    next other => exact ⟨trim.held v pre dest edge, fun eq => other (alone v inLayout (eq ▸ edge))⟩

theorem tidied (trim : g.Trim func entry) (merging : g.Merging func entry home) (tidied : g.Tidied t func) :
    t.Trim func entry := by
  have succs : t.succsOf = g.succsOf := funext fun v => by
    rw [Graph.succsOf, tidied.rewired.kind? v, Graph.succsOf]
  have preds : t.predsOf = g.predsOf := funext fun v => by
    rw [Graph.predsOf, tidied.rewired.kind? v, Graph.predsOf]
  refine ⟨?_, ?_, ?_⟩
  · simpa only [tidied.layout, succs] using trim.succs
  · simpa only [tidied.layout, preds] using trim.preds
  · intro v path dest edge
    rw [succs] at edge
    rw [tidied.layout]
    exact trim.held v ((MergeStep.tidied merging tidied).reaches path) dest edge

theorem step (trim : g.Trim func entry) (step : MergeStep func entry home g t) : t.Trim func entry := by
  cases step with
  | removed merging away unreached removed => exact trim.without merging away unreached removed
  | appended hm => exact trim.appended hm
  | tidied merging tidied => exact trim.tidied merging tidied

theorem steps (trim : g.Trim func entry) (steps : MergeSteps func entry home g t) : t.Trim func entry := by
  induction steps with
  | refl => exact trim
  | tail _ last ih => exact ih.step last

theorem edged (trim : g.Trim func entry) (merging : g.Merging func entry home)
    (path : ∀ b ∈ g.layout func, g.Reaches entry b) : g.Edged func := by
  have succs : ∀ b ∈ g.layout func, ∀ dest, dest ∈ g.succsOf b ↔ dest ∈ g.exits b := by
    intro b mem dest
    constructor
    · intro edge
      exact (merging.succs b mem dest (trim.held b (path b mem) dest edge)).1 edge
    · intro goes
      exact (merging.succs b mem dest (merging.targets b mem dest goes)).2 goes
  refine ⟨succs, ?_⟩
  intro b mem source
  rw [merging.preds b mem source]
  exact and_congr_right fun old => succs source old b

end Trim

theorem Absorbs.canMerge (absorbs : g.Absorbs func pred b) (wf : g.Structured func) (edged : g.Edged func)
    (trim : g.Trim func entry) : g.predsOf b = [pred] ∧ g.canMerge pred b = .ok true := by
  obtain ⟨mem, goes⟩ := (absorbs.entered pred).2 rfl
  have dest := wf.targets pred mem b goes
  obtain ⟨d, hit⟩ := wf.blocks pred mem
  have preds : g.predsOf b = [pred] := by
    apply nodup_singleton_iff (trim.preds b dest)
    intro source
    rw [edged.preds b dest, absorbs.entered]
  have succs : g.succsOf pred = [b] := by
    apply nodup_singleton_iff (trim.succs pred mem)
    intro next
    rw [edged.succs pred mem]
    constructor
    · exact absorbs.leaves next
    · rintro rfl
      exact goes
  obtain ⟨jump, ends, jumps⟩ := absorbs.jumps
  refine ⟨preds, ?_⟩
  unfold Graph.canMerge
  rw [succsOf_of_kind? hit] at succs
  simp [absorbs.different, block_eq_ok.2 hit, Consistent.terminator? hit, bind, Except.bind, pure, Except.pure,
    succs, ends, jumps]

structure Normal (g : Graph) (func entry : ValueId) : Prop extends g.Structured func, g.Trim func entry where
  first : (g.operandsOf func).head? = some (some entry)
  edged : g.Edged func
  reached : ∀ block ∈ g.layout func, g.Reaches entry block
  separate : ∀ block, block ≠ entry → ∀ pred, ¬ g.Absorbs func pred block

section
variable (linked : g.Linked t (g.layout func) (g.edges func))
include linked

private theorem Linked.nodup_succsOf (wf : g.Structured func) :
    ∀ b ∈ t.layout func, (t.succsOf b).Nodup := by
  intro b mem
  rw [linked.sameFlow.layout] at mem
  obtain ⟨d, hit⟩ := wf.blocks b mem
  rw [succsOf_of_kind? (linked.block_of hit), if_pos mem]
  exact nodup_eraseDups _

private theorem Linked.nodup_predsOf (wf : g.Structured func) :
    ∀ b ∈ t.layout func, (t.predsOf b).Nodup := by
  intro b mem
  rw [linked.sameFlow.layout] at mem
  obtain ⟨d, hit⟩ := wf.blocks b mem
  rw [predsOf_of_kind? (linked.block_of hit), if_pos mem]
  exact nodup_eraseDups _

private theorem Linked.trim (wf : g.Structured func)
    (first : (g.operandsOf func).head? = some (some entry)) : t.Trim func entry := by
  have eq := linked.sameFlow
  have formed' := eq.structured wf
  have ent : entry ∈ t.layout func := by
    rw [eq.layout]
    exact mem_layout.2 (mem_of_head? first)
  refine ⟨linked.nodup_succsOf wf, linked.nodup_predsOf wf, ?_⟩
  intro b path dest edge
  have mem := path.mem_layout formed' ent
  exact formed'.targets b mem dest (((linked.edged wf).succs b mem dest).1 edge)

end

private theorem Merging.mergeRounds_idle {fuel : Nat} {upd : Bool} (merging : g.Merging func entry home)
    (enough : (g.layout func).length < fuel) (done : Graph.mergeRounds fuel g func entry = .ok (upd, t)) :
    (∀ b ∈ t.layout func, t.Stays func entry b) ∧ (upd = false → t = g) ∧
      (upd = true → (t.layout func).length < (g.layout func).length) := by
  induction fuel generalizing g upd with
  | zero => omega
  | succ fuel ih =>
    obtain ⟨_, again, mid, _, round, swept, _⟩ := merging.mergeRound
    obtain ⟨res, isRound, run⟩ := bind_eq_ok.1 (show (g.mergeRound func entry >>= _) = _ from done)
    cases round.symm.trans isRound
    cases again with
    | false =>
      cases run
      obtain ⟨_, eq, stay⟩ := swept.idle rfl
      simp only at eq
      subst eq
      exact ⟨stay, fun _ => rfl, nofun⟩
    | true =>
      obtain ⟨⟨last, final⟩, tl, eq⟩ := bind_eq_ok.1 run
      cases eq
      have fewer := (swept.shorter rfl).resolve_left nofun
      simp only at fewer
      obtain ⟨stay, unchanged, shorter⟩ := ih (swept.steps.merging merging) (Nat.lt_of_lt_of_le fewer (by omega)) tl
      refine ⟨stay, nofun, fun _ => ?_⟩
      cases last with
      | false => exact unchanged rfl ▸ fewer
      | true => exact Nat.lt_trans (shorter rfl) fewer

private theorem Edged.mergeBlocks_normal (edged : g.Edged func) (trim : g.Trim func entry) (wf : g.Structured func)
    (first : (g.operandsOf func).head? = some (some entry)) :
    ∃ upd t, g.mergeBlocks func = .ok (upd, t) ∧ MergeSteps func entry (g.layout func) g t ∧
      t.Normal func entry ∧ (upd = false → t = g) ∧
      (upd = true → (t.layout func).length < (g.layout func).length) := by
  have merging := edged.merging wf first
  obtain ⟨upd, t, done, steps, path⟩ := edged.mergeBlocks wf first
  have final := steps.merging merging
  have trim' := trim.steps steps
  have edged' := trim'.edged final path
  obtain ⟨d, read⟩ := value_of_lt wf.inside
  have rounds : Graph.mergeRounds (d.operands.length + 1) g func entry = .ok (upd, t) := by
    unfold Graph.mergeBlocks at done
    rw [wf.entryBlock, first] at done
    obtain ⟨count, isCount, rounds⟩ := bind_eq_ok.1 (show (g.operandCount func >>= _) = _ from done)
    rw [operandCount, read] at isCount
    cases isCount
    exact rounds
  have enough : (g.layout func).length < d.operands.length + 1 := by
    have short := length_filterMap_le id (g.operandsOf func)
    have size : (g.operandsOf func).length = d.operands.length := by
      rw [operandsOf, length_map, slots_of_value read]
    exact Nat.lt_succ_of_le (size ▸ short)
  obtain ⟨stay, unchanged, shorter⟩ := merging.mergeRounds_idle enough rounds
  refine ⟨upd, t, done, steps, ⟨final.toStructured, trim', final.first, edged', path, ?_⟩, unchanged, shorter⟩
  intro b away pred absorbs
  obtain ⟨ent, can⟩ := absorbs.canMerge final.toStructured edged' trim'
  obtain ⟨mem, goes⟩ := (absorbs.entered pred).2 rfl
  have dest := final.targets pred mem b goes
  cases (stay b dest dest away pred ent).symm.trans can

namespace Normal

theorem merging (normal : g.Normal func entry) : g.Merging func entry (g.layout func) :=
  normal.edged.merging normal.toStructured normal.first

theorem looked {b : ValueId} {upd : Bool} {next : Bool × Graph} (normal : g.Normal func entry)
    (looked : Looked func entry home b (upd, g) next) : next = (upd, g) := by
  cases looked with
  | left => rfl
  | @taken _ _ t step mem layout =>
    exfalso
    have gone : b ∉ t.layout func := by simp [layout]
    cases step with
    | @removed other _ away unreached removed =>
      have eq : b = other := Classical.byContradiction fun ne =>
        gone (removed.mem_layout_iff.2 ⟨mem, ne⟩)
      exact unreached (eq ▸ normal.reached b mem)
    | @appended pred other jump hm =>
      apply normal.separate other hm.away pred
      refine ⟨hm.different, ?_, ?_, jump, hm.ends, hm.jumps⟩
      · intro source
        rw [← normal.edged.preds other hm.right, hm.entered, mem_singleton]
      · intro dest goes
        rw [← normal.edged.succs pred hm.left, hm.leaves] at goes
        exact mem_singleton.1 goes
    | tidied _ tidied =>
      rw [tidied.layout] at gone
      exact gone mem

theorem mergeEach {live : List ValueId} (normal : g.Normal func entry) (alive : g.Live entry live)
    (bs : List ValueId) : bs.foldlM (Graph.mergeBlock func entry live) (false, g) = .ok (false, g) := by
  induction bs with
  | nil => rfl
  | cons b tl ih =>
    obtain ⟨upd, t, done, looked, _⟩ := normal.merging.mergeBlock alive false b
    cases normal.looked looked
    exact bind_eq_ok.2 ⟨_, done, ih⟩

theorem mergeBlocks (normal : g.Normal func entry) : g.mergeBlocks func = .ok (false, g) := by
  obtain ⟨live, searched, alive⟩ := normal.merging.reachable
  have round : g.mergeRound func entry = .ok (false, g) := by
    unfold Graph.mergeRound
    simp only [searched, normal.consistent.functionBlocks normal.inside, normal.mergeEach alive, bind, Except.bind]
    rfl
  obtain ⟨d, read⟩ := value_of_lt normal.inside
  unfold Graph.mergeBlocks
  rw [normal.toStructured.entryBlock, normal.first, operandCount, read]
  refine bind_eq_ok.2 ⟨_, rfl, bind_eq_ok.2 ⟨d.operands.length, rfl, ?_⟩⟩
  exact bind_eq_ok.2 ⟨_, round, rfl⟩

end Normal

theorem SameFlow.lastOf (eq : g.SameFlow t func) (b : ValueId) : t.lastOf b = g.lastOf b := by
  simp only [Graph.lastOf, eq.code, funext eq.isTerminator]

private theorem SameFlow.absorbs (eq : g.SameFlow t func) (wf : g.Structured func)
    (absorbs : t.Absorbs func pred b) : g.Absorbs func pred b := by
  obtain ⟨ne, ent, leaves, jump, ends, jumps⟩ := absorbs
  simp only [eq.layout, eq.exits wf, eq.lastOf, eq.opcode?] at ent leaves ends jumps
  exact ⟨ne, ent, leaves, jump, ends, jumps⟩

theorem Normal.linked (normal : g.Normal func entry) (linked : g.Linked t (g.layout func) (g.edges func)) :
    t.Normal func entry := by
  have wf := normal.toStructured
  have eq := linked.sameFlow
  refine ⟨eq.structured wf, linked.trim wf normal.first, ?_, linked.edged wf, ?_, ?_⟩
  · rw [linked.operandsOf func]
    exact normal.first
  · intro b mem
    exact (eq.reaches wf normal.merging.entry_mem).2 (normal.reached b (eq.layout ▸ mem))
  · intro b away pred absorbs
    exact normal.separate b away pred (eq.absorbs wf absorbs)

theorem Linked.layout (linked : g.Linked t (g.layout func) (g.edges func)) (v : ValueId) :
    t.layout v = g.layout v := by
  rw [Graph.layout, linked.operandsOf v, Graph.layout]

structure Current (g fresh : Graph) (func : ValueId) : Prop where
  succs : ∀ block ∈ g.layout func, (g.succsOf block).Nodup ∧ ∀ v, v ∈ g.succsOf block ↔ v ∈ fresh.succsOf block
  preds : ∀ block ∈ g.layout func, (g.predsOf block).Nodup ∧ ∀ v, v ∈ g.predsOf block ↔ v ∈ fresh.predsOf block

theorem Edged.current {fresh : Graph} (edged : g.Edged func) (wf : g.Structured func)
    (linked : g.Linked fresh (g.layout func) (g.edges func)) (succs : ∀ b ∈ g.layout func, (g.succsOf b).Nodup)
    (preds : ∀ b ∈ g.layout func, (g.predsOf b).Nodup) : g.Current fresh func := by
  refine ⟨?_, ?_⟩
  · intro b mem
    refine ⟨succs b mem, fun v => ?_⟩
    rw [edged.succs b mem, linked.mem_succsOf wf mem]
  · intro b mem
    refine ⟨preds b mem, fun v => ?_⟩
    rw [edged.preds b mem, linked.mem_predsOf wf mem]

structure Merged (g edges : Graph) (changed : Bool) (merged again : Graph) (func : ValueId) : Prop where
  structured : merged.Structured func
  computed : g.computeEdges func = .ok edges
  merges : edges.mergeBlocks func = .ok (changed, merged)
  shorter : changed = true ↔ (merged.layout func).length < (g.layout func).length
  unchanged : changed = false → merged = edges
  order : (merged.layout func).Sublist (g.layout func)
  entered : ∀ entry, g.entryBlock func = .ok (some entry) → (merged.operandsOf func).head? = some (some entry) ∧
    (∀ block, block ∈ merged.layout func ↔ merged.Reaches entry block) ∧
    (∀ block ∈ merged.layout func, g.Reaches entry block) ∧
    ∀ block, block ≠ entry → ∀ pred, ¬ merged.Absorbs func pred block
  current : merged.Current again func
  recomputed : merged.computeEdges func = .ok again
  idle : again.mergeBlocks func = .ok (false, again)
  layout : ∀ v, again.layout v = merged.layout v
  code : ∀ v, again.code v = merged.code v

private theorem Linked.merged_of_entryBlock (linked : g.Linked t (g.layout func) (g.edges func)) (wf : g.Structured func)
    (computed : g.computeEdges func = .ok t) (missing : g.entryBlock func = .ok none) :
    ∃ again, g.Merged t false t again func := by
  have formed' := linked.sameFlow.structured wf
  obtain ⟨again, recomputed, linked'⟩ := formed'.consistent.computeEdges formed'.inside formed'.blocks formed'.targets
  have entries : t.entryBlock func = .ok none := by
    rw [formed'.entryBlock, linked.operandsOf func, ← wf.entryBlock, missing]
  have entries' : again.entryBlock func = .ok none := by
    rw [(linked'.sameFlow.structured formed').entryBlock, linked'.operandsOf func, ← formed'.entryBlock, entries]
  refine ⟨again, formed', computed, ?_, ?_, fun _ => rfl, ?_, ?_, ?_, recomputed, ?_, linked'.layout, linked'.sameFlow.code⟩
  · unfold Graph.mergeBlocks
    rw [entries]
    rfl
  · simp [linked.layout]
  · rw [linked.layout]
  · intro entry hit
    cases missing.symm.trans hit
  · exact (linked.edged wf).current formed' linked' (linked.nodup_succsOf wf) (linked.nodup_predsOf wf)
  · unfold Graph.mergeBlocks
    rw [entries']
    rfl

/-- Merging after the edges were computed reaches the normal form. -/
theorem Linked.merged (linked : g.Linked t (g.layout func) (g.edges func)) (wf : g.Structured func)
    (computed : g.computeEdges func = .ok t) (first : (g.operandsOf func).head? = some (some entry)) :
    ∃ upd hm again, g.Merged t upd hm again func := by
  have eq := linked.sameFlow
  have formed' := eq.structured wf
  have edged := linked.edged wf
  have first' : (t.operandsOf func).head? = some (some entry) := linked.operandsOf func ▸ first
  obtain ⟨upd, hm, merges, steps, normal, unchanged, shorter⟩ :=
    edged.mergeBlocks_normal (linked.trim wf first) formed' first'
  have final := normal.toStructured
  obtain ⟨again, recomputed, linked'⟩ := final.consistent.computeEdges final.inside final.blocks final.targets
  refine ⟨upd, hm, again, final, computed, merges, ?_, unchanged, ?_, ?_, ?_, recomputed, (normal.linked linked').mergeBlocks,
    linked'.layout, linked'.sameFlow.code⟩
  · constructor
    · intro isTrue
      rw [← linked.layout]
      exact shorter isTrue
    · intro fewer
      cases upd with
      | true => rfl
      | false =>
        rw [unchanged rfl, linked.layout] at fewer
        omega
  · rw [← linked.layout]
    exact steps.layout_sublist
  · intro other hit
    rw [wf.entryBlock, first] at hit
    cases hit
    refine ⟨normal.first, fun b => ⟨normal.reached b, ?_⟩, fun b mem => ?_, normal.separate⟩
    · exact fun path => path.mem_layout final normal.merging.entry_mem
    · exact (eq.reaches wf (mem_layout.2 (mem_of_head? first))).1 (steps.reaches (normal.reached b mem))
  · exact normal.edged.current final linked' normal.succs normal.preds

theorem Structured.merged (wf : g.Structured func) :
    ∃ edges upd hm again, g.Merged edges upd hm again func := by
  obtain ⟨edges, computed, linked⟩ := wf.consistent.computeEdges wf.inside wf.blocks wf.targets
  cases first : (g.operandsOf func).head?.join with
  | none =>
    obtain ⟨again, passes⟩ := Linked.merged_of_entryBlock linked wf computed (by rw [wf.entryBlock, first])
    exact ⟨edges, false, edges, again, passes⟩
  | some entry => exact ⟨edges, Linked.merged linked wf computed (Option.join_eq_some_iff.1 first)⟩

end Graph

end Midend
