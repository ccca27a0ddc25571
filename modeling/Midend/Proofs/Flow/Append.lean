import Midend.Proofs.Flow.Remove

/-! A block that is entered only from the end of one other block is appended to that block,
in place of the jump between them. This keeps the state of merging and all runs of the
function. -/
namespace Midend.Graph
open List
variable {b pred : ValueId} {refs : List (Option ValueId)}

structure Chained (g : Graph) (func entry : ValueId) (home : List ValueId)
    (pred block jump : ValueId) : Prop where
  before : g.Merging func entry home
  left : pred ∈ g.layout func
  right : block ∈ g.layout func
  different : pred ≠ block
  away : block ≠ entry
  ends : g.lastOf pred = some jump
  jumps : g.opcode? jump = some .jmp
  leaves : g.succsOf pred = [block]
  entered : g.predsOf block = [pred]

def redirected (pred block : ValueId) (refs : List (Option ValueId)) : List (Option ValueId) :=
  refs.map fun target => if target = some block then some pred else target

structure Appended (g after : Graph) (func entry : ValueId) (home : List ValueId)
    (pred block jump : ValueId) : Prop extends g.Chained func entry home pred block jump where
  edited : g.Edited after (withAppended pred block (g.code block) (g.succsOf block))
    (fun v i => if v ∈ g.code block then { i with parent := pred } else i)
    (fun v old =>
      if v = block ∨ v = jump then []
      else redirected pred block (if v = func then vacated block old else old))

theorem redirected_of_not_mem (absent : b ∉ refs.filterMap id) : redirected pred b refs = refs := by
  refine (map_congr_left ?_).trans (map_id refs)
  intro dest mem
  refine if_neg ?_
  rintro rfl
  exact absent (mem_filterMap.2 ⟨_, mem, rfl⟩)

private theorem mem_redirected {v : ValueId} (mem : some v ∈ redirected pred b refs) :
    some v ∈ refs ∨ v = pred ∧ some b ∈ refs := by
  obtain ⟨dest, inRefs, equal⟩ := mem_map.1 mem
  split at equal
  next eq =>
    cases equal
    exact .inr ⟨rfl, eq ▸ inRefs⟩
  next => exact .inl (equal ▸ inRefs)

namespace Chained
variable {g : Graph} {f entry : ValueId} {home : List ValueId} {pred b jump : ValueId}
variable {v : ValueId}

section
variable (chained : g.Chained f entry home pred b jump)
include chained

theorem formed : g.Structured f :=
  chained.before.toStructured

theorem jump_mem : jump ∈ g.code pred :=
  (lastOf_mem chained.ends).1

theorem eq_pred (mem : v ∈ g.layout f) (goes : b ∈ g.exits v) : v = pred := by
  have edge := (chained.before.succs v mem b chained.right).2 goes
  have isPred := (chained.before.preds b chained.right v).2 ⟨mem, edge⟩
  rw [chained.entered] at isPred
  exact mem_singleton.1 isPred

theorem block_mem_exits : b ∈ g.exits pred := by
  rw [← chained.before.succs pred chained.left b chained.right, chained.leaves]
  exact mem_singleton.2 rfl

theorem eq_block {dest : ValueId} (goes : dest ∈ g.exits pred) : dest = b := by
  have mem := chained.formed.targets pred chained.left dest goes
  rw [← chained.before.succs pred chained.left dest mem, chained.leaves] at goes
  exact mem_singleton.1 goes

private theorem not_mem_exits_block : b ∉ g.exits b := fun goes =>
  chained.different (chained.eq_pred chained.right goes).symm

theorem eq_pred_of_jump_mem (isIn : v ∈ g.layout f) (mem : jump ∈ g.code v) : v = pred :=
  chained.formed.apart v isIn pred chained.left jump mem chained.jump_mem

private theorem next?_jump : g.next? jump true = some b := by
  have goes := chained.block_mem_exits
  rw [Structured.exits_of_lastOf chained.ends] at goes
  rw [chained.formed.consistent.next?, chained.jumps]
  cases dests : g.targetsOf jump with
  | nil =>
    rw [dests] at goes
    cases goes
  | cons dest tl =>
    have isExit : dest ∈ g.exits pred := by
      rw [Structured.exits_of_lastOf chained.ends, dests]
      exact mem_cons_self ..
    rw [chained.eq_block isExit]
    rfl

theorem mergeInto : ∃ t, g.mergeInto f pred b = .ok t ∧
      g.Appended t f entry home pred b jump := by
  have wf := chained.formed
  obtain ⟨predData, predFound⟩ := wf.blocks pred chained.left
  obtain ⟨d, hit⟩ := wf.blocks b chained.right
  obtain ⟨t, done, edited⟩ := wf.consistent.mergeInto wf.function wf.nodup predFound
    hit chained.different chained.ends (wf.insts pred chained.left jump chained.jump_mem)
    (code_of_kind? hit ▸ wf.insts b chained.right) (by
      intro v edge
      rw [← succsOf_of_kind? hit] at edge
      exact chained.before.homeBlocks v
        (chained.before.homeSuccs b (chained.before.listed b chained.right) v edge))
  refine ⟨t, done, chained, ?_⟩
  rw [succsOf_of_kind? hit, code_of_kind? hit]
  exact edited

end

end Chained

namespace Appended
variable {g t : Graph} {f entry : ValueId} {home : List ValueId} {pred b jump : ValueId}
variable {v i : ValueId} {d : Block} {tail : List ValueId}

theorem operandsOf_func (merged : g.Appended t f entry home pred b jump) :
    t.operandsOf f = vacated b (g.operandsOf f) := by
  have nb := (merged.formed.block_ne_func merged.right).symm
  have notJump := (merged.formed.inst_ne_func merged.left merged.jump_mem).symm
  rw [merged.edited.operandsOf f, if_neg (not_or.2 ⟨nb, notJump⟩), if_pos rfl, redirected]
  refine (map_congr_left ?_).trans (map_id _)
  intro dest mem
  refine if_neg ?_
  rintro rfl
  exact (mem_vacated.1 mem).2 rfl

theorem layout (merged : g.Appended t f entry home pred b jump) :
    t.layout f = (g.layout f).filter (· ≠ b) := by
  rw [Graph.layout, merged.operandsOf_func, filterMap_vacated, Graph.layout]

theorem mem_layout_iff (merged : g.Appended t f entry home pred b jump) {v : ValueId} :
    v ∈ t.layout f ↔ v ∈ g.layout f ∧ v ≠ b := by
  rw [merged.layout, mem_filter]
  simp

section
variable (merged : g.Appended t f entry home pred b jump)
include merged

theorem code (notPred : v ≠ pred) (nb : v ≠ b) : t.code v = g.code v := by
  refine merged.edited.code_eq ?_
  intro d _
  rw [withAppended, if_neg notPred, if_neg nb]

theorem code_pred : t.code pred = (g.code pred).dropLast ++ g.code b := by
  obtain ⟨d, hit⟩ := merged.formed.blocks pred merged.left
  rw [code_of_kind? (merged.edited.block_of hit), code_of_kind? hit, withAppended, if_pos rfl]

theorem succsOf (hit : g.kind? v = some (.block d)) : t.succsOf v =
      if v = pred then g.succsOf b else if v = b then [] else g.succsOf v := by
  rw [succsOf_of_kind? (merged.edited.block_of hit), succsOf_of_kind? hit, withAppended]

theorem predsOf (hit : g.kind? v = some (.block d)) (nb : v ≠ b) : t.predsOf v =
      if v ∈ g.succsOf b then
        ((g.predsOf v).map fun p => if p = b then pred else p).eraseDups
      else g.predsOf v := by
  rw [predsOf_of_kind? (merged.edited.block_of hit), predsOf_of_kind? hit]
  exact if_neg nb

theorem opcode? (v : ValueId) : t.opcode? v = g.opcode? v := by
  refine merged.edited.opcode? ?_ v
  intro w d
  split <;> rfl

theorem isTerminator (v : ValueId) : t.isTerminator v = g.isTerminator v := by
  rw [Graph.isTerminator, merged.opcode? v, Graph.isTerminator]

/-- Instructions other than the jump between the blocks refer to the same values as before,
with the one block in place of the other. -/
theorem operandsOf_inst (isIn : v ∈ g.layout f) (mem : i ∈ g.code v) (notJump : i ≠ jump) :
    t.operandsOf i = redirected pred b (g.operandsOf i) := by
  have nb := merged.formed.inst_ne_block isIn mem merged.right
  have notFunc := merged.formed.inst_ne_func isIn mem
  rw [merged.edited.operandsOf i, if_neg (not_or.2 ⟨nb, notJump⟩), if_neg notFunc]

theorem targetsOf_inst (isIn : v ∈ g.layout f)
    (mem : i ∈ g.code v) (notJump : i ≠ jump) (absent : b ∉ g.targetsOf i) :
    t.targetsOf i = g.targetsOf i := by
  rw [targetsOf, merged.opcode? i, merged.operandsOf_inst isIn mem notJump, targetsOf]
  unfold targetsOf at absent
  cases hit : g.opcode? i with
  | none => rfl
  | some op =>
    rw [hit] at absent
    cases op with
    | jmp => simp only [redirected_of_not_mem absent]
    | br =>
      have tl : (redirected pred b (g.operandsOf i)).drop 1 = (g.operandsOf i).drop 1 := by
        rw [redirected, ← map_drop]
        exact redirected_of_not_mem absent
      simp only [tl]
    | _ => rfl

theorem lastOf (notPred : v ≠ pred) (nb : v ≠ b) : t.lastOf v = g.lastOf v := by
  have eq : t.isTerminator = g.isTerminator := funext merged.isTerminator
  rw [Graph.lastOf, merged.code notPred nb, eq, Graph.lastOf]

private theorem lastOf_pred : t.lastOf pred = g.lastOf b := by
  have eq : t.isTerminator = g.isTerminator := funext merged.isTerminator
  obtain ⟨body, last, cs, _, _⟩ := merged.formed.terminated b merged.right
  rw [Graph.lastOf, merged.code_pred, eq, Graph.lastOf, cs, ← append_assoc, getLast?_concat, getLast?_concat]

private theorem targetsOf_last {last : ValueId}
    (isIn : v ∈ g.layout f) (notPred : v ≠ pred) (ends : g.lastOf v = some last) :
    t.targetsOf last = g.targetsOf last := by
  have mem := (lastOf_mem ends).1
  refine merged.targetsOf_inst isIn mem ?_ ?_
  · rintro rfl
    exact notPred (merged.eq_pred_of_jump_mem isIn mem)
  · intro goes
    exact notPred (merged.eq_pred isIn (Structured.exits_of_lastOf ends ▸ goes))

theorem exits (mem : v ∈ g.layout f) (notPred : v ≠ pred) (nb : v ≠ b) : t.exits v = g.exits v := by
  obtain ⟨last, ends, _⟩ := merged.formed.lastOf_isSome mem
  rw [Graph.exits, merged.lastOf notPred nb, Graph.exits, ends]
  exact merged.targetsOf_last mem notPred ends

theorem exits_pred : t.exits pred = g.exits b := by
  obtain ⟨last, ends, _⟩ := merged.formed.lastOf_isSome merged.right
  rw [Graph.exits, merged.lastOf_pred, Graph.exits, ends]
  exact merged.targetsOf_last merged.right merged.different.symm ends

theorem exits_cases {dest : ValueId} (mem : v ∈ t.layout f) (goes : dest ∈ t.exits v) :
    dest ∈ g.layout f ∧ dest ≠ b ∧ (dest ∈ g.exits v ∨ v = pred ∧ dest ∈ g.exits b) := by
  obtain ⟨inLayout, nb⟩ := merged.mem_layout_iff.1 mem
  by_cases isPred : v = pred
  · rw [isPred, merged.exits_pred] at goes
    refine ⟨merged.formed.targets b merged.right dest goes, ?_, .inr ⟨isPred, goes⟩⟩
    rintro rfl
    exact merged.not_mem_exits_block goes
  · rw [merged.exits inLayout isPred nb] at goes
    refine ⟨merged.formed.targets v inLayout dest goes, ?_, .inl goes⟩
    rintro rfl
    exact isPred (merged.eq_pred inLayout goes)

theorem mem_operandsOf {user : ValueId} (mem : some v ∈ t.operandsOf user) :
    some v ∈ g.operandsOf user ∨ v = pred ∧ some b ∈ g.operandsOf user := by
  rw [merged.edited.operandsOf user] at mem
  split at mem
  · cases mem
  · rcases mem_redirected mem with inRefs | ⟨isPred, inRefs⟩
    · split at inRefs
      · exact .inl (mem_vacated.1 inRefs).1
      · exact .inl inRefs
    · split at inRefs
      · exact .inr ⟨isPred, (mem_vacated.1 inRefs).1⟩
      · exact .inr ⟨isPred, inRefs⟩

theorem head_operandsOf {branch : ValueId}
    (isBranch : g.opcode? branch = some .br) (head : (t.operandsOf branch).head? = some (some v)) :
    (g.operandsOf branch).head? = some (some v) := by
  have notFunc : branch ≠ f := by
    obtain ⟨d, isFn⟩ := merged.formed.function
    rintro rfl
    simp [Graph.opcode?, isFn, Kind.opcode?] at isBranch
  have away := merged.formed.conditions branch b merged.right isBranch
  rw [merged.edited.operandsOf branch, if_neg notFunc] at head
  split at head
  · cases head
  · rw [redirected, head?_map] at head
    obtain ⟨dest, first, equal⟩ := Option.map_eq_some_iff.1 head
    rw [if_neg fun eq : dest = some b => away (eq ▸ first)] at equal
    exact equal ▸ first

theorem mem_code (nb : v ≠ b) (mem : i ∈ t.code v) :
    i ∈ g.code v ∨ v = pred ∧ i ∈ g.code b := by
  by_cases isPred : v = pred
  · rw [isPred, merged.code_pred] at mem
    rcases mem_append.1 mem with inPred | inBlock
    · exact .inl (isPred ▸ (dropLast_sublist _).subset inPred)
    · exact .inr ⟨isPred, inBlock⟩
  · rw [merged.code isPred nb] at mem
    exact .inl mem

private theorem terminated_pred : ∃ body last, t.code pred = body ++ [last] ∧ g.isTerminator last ∧
      ∀ i ∈ body, ¬ g.isTerminator i := by
  obtain ⟨front, final, cs, _, inner⟩ := merged.formed.terminated pred merged.left
  obtain ⟨body, last, code', ends, inner'⟩ := merged.formed.terminated b merged.right
  refine ⟨front ++ body, last, ?_, ends, ?_⟩
  · rw [merged.code_pred, cs, code', dropLast_concat, append_assoc]
  · intro i mem
    rcases mem_append.1 mem with inFront | inBody
    · exact inner i inFront
    · exact inner' i inBody

theorem structured : t.Structured f := by
  have wf := merged.formed
  have stays := @mem_layout_iff _ _ _ _ _ _ _ _ merged
  refine ⟨⟨merged.edited.consistent, ?_, ?_, ?_, ?_, ?_, ?_⟩, ?_, ?_⟩
  · obtain ⟨d, hit⟩ := wf.function
    exact ⟨d, merged.edited.function_of hit⟩
  · intro v isIn
    obtain ⟨d, hit⟩ := wf.blocks v (stays.1 isIn).1
    exact ⟨_, merged.edited.block_of hit⟩
  · rw [merged.layout]
    exact wf.nodup.filter _
  · intro v isIn i mem
    obtain ⟨inLayout, nb⟩ := stays.1 isIn
    obtain ⟨d, hit⟩ : ∃ d, g.kind? i = some (.inst d) := by
      rcases merged.mem_code nb mem with here | ⟨_, there⟩
      · exact wf.insts v inLayout i here
      · exact wf.insts b merged.right i there
    exact ⟨_, merged.edited.inst_of hit⟩
  · intro v isIn
    obtain ⟨inLayout, nb⟩ := stays.1 isIn
    simp only [merged.isTerminator]
    by_cases isPred : v = pred
    · exact isPred ▸ merged.terminated_pred
    · rw [merged.code isPred nb]
      exact wf.terminated v inLayout
  · intro v isIn dest goes
    obtain ⟨inLayout, nb, _⟩ := merged.exits_cases isIn goes
    exact stays.2 ⟨inLayout, nb⟩
  · intro v isIn w listed' i left right
    obtain ⟨inLayout, nb⟩ := stays.1 isIn
    obtain ⟨inLayout', notBlock'⟩ := stays.1 listed'
    rcases merged.mem_code nb left with here | ⟨isPred, here⟩
    · rcases merged.mem_code notBlock' right with there | ⟨isPred', there⟩
      · exact wf.apart v inLayout w inLayout' i here there
      · exact absurd (wf.apart v inLayout b merged.right i here there) nb
    · rcases merged.mem_code notBlock' right with there | ⟨isPred', there⟩
      · exact absurd (wf.apart w inLayout' b merged.right i there here) notBlock'
      · exact isPred.trans isPred'.symm
  · intro branch v isIn isBranch head
    rw [merged.opcode? branch] at isBranch
    exact wf.conditions branch v (stays.1 isIn).1 isBranch (merged.head_operandsOf isBranch head)

theorem wellFormed (wf : g.WellFormed f) : t.WellFormed f := by
  refine ⟨merged.structured, ?_⟩
  intro user v isIn mem
  rw [merged.edited.isBlock user, merged.isTerminator user]
  rcases merged.mem_operandsOf mem with eq | ⟨_, other⟩
  · exact wf.references user v (merged.mem_layout_iff.1 isIn).1 eq
  · exact wf.references user b merged.right other

private theorem mem_succsOf_iff {source : ValueId} (mem : source ∈ t.layout f) (nb : v ≠ b) :
    v ∈ t.succsOf source ↔ v ∈ g.succsOf source ∨ source = pred ∧ v ∈ g.succsOf b := by
  obtain ⟨inLayout, sourceNotBlock⟩ := merged.mem_layout_iff.1 mem
  obtain ⟨d, hit⟩ := merged.formed.blocks source inLayout
  rw [merged.succsOf hit]
  by_cases isPred : source = pred
  · simp [isPred, merged.leaves, nb]
  · simp [isPred, sourceNotBlock]

/-- The function is in the middle of merging also after a block was appended. -/
theorem merging : t.Merging f entry home := by
  have pre := merged.before
  have stays := @mem_layout_iff _ _ _ _ _ _ _ _ merged
  have predStays : pred ∈ t.layout f := stays.2 ⟨merged.left, merged.different⟩
  refine ⟨merged.structured, ?_, ?_, ?_, ?_, ?_, ?_⟩
  · rw [merged.operandsOf_func, vacated, head?_map, pre.first]
    simp [merged.away.symm]
  · intro v mem dest listed'
    obtain ⟨inLayout, nb⟩ := stays.1 mem
    obtain ⟨inLayout', notBlock'⟩ := stays.1 listed'
    obtain ⟨d, hit⟩ := pre.blocks v inLayout
    by_cases isPred : v = pred
    · rw [merged.succsOf hit, if_pos isPred, isPred, merged.exits_pred]
      exact pre.succs b merged.right dest inLayout'
    · rw [merged.succsOf hit, if_neg isPred, if_neg nb, merged.exits inLayout isPred nb]
      exact pre.succs v inLayout dest inLayout'
  · intro v mem source
    obtain ⟨inLayout, nb⟩ := stays.1 mem
    obtain ⟨d, hit⟩ := pre.blocks v inLayout
    have edges := fun source => pre.preds v inLayout source
    rw [merged.predsOf hit nb]
    split
    next enters =>
      rw [mem_eraseDups, mem_map]
      constructor
      · rintro ⟨old, isPred, rfl⟩
        obtain ⟨known, edge⟩ := (edges old).1 isPred
        split
        · exact ⟨predStays, (merged.mem_succsOf_iff predStays nb).2 (.inr ⟨rfl, enters⟩)⟩
        next kept =>
          have oldStays := stays.2 ⟨known, kept⟩
          exact ⟨oldStays, (merged.mem_succsOf_iff oldStays nb).2 (.inl edge)⟩
      · rintro ⟨sourceStays, edge⟩
        obtain ⟨known, sourceNotBlock⟩ := stays.1 sourceStays
        rcases (merged.mem_succsOf_iff sourceStays nb).1 edge with old | ⟨rfl, _⟩
        · exact ⟨source, (edges source).2 ⟨known, old⟩, if_neg sourceNotBlock⟩
        · exact ⟨b, (edges b).2 ⟨merged.right, enters⟩, if_pos rfl⟩
    next absent =>
      rw [edges source]
      constructor
      · rintro ⟨known, edge⟩
        have sourceStays := stays.2 ⟨known, fun eq => absent (eq ▸ edge)⟩
        exact ⟨sourceStays, (merged.mem_succsOf_iff sourceStays nb).2 (.inl edge)⟩
      · rintro ⟨sourceStays, edge⟩
        rcases (merged.mem_succsOf_iff sourceStays nb).1 edge with old | ⟨_, enters⟩
        · exact ⟨(stays.1 sourceStays).1, old⟩
        · exact absurd enters absent
  · intro v mem
    exact pre.listed v (stays.1 mem).1
  · intro v inHome
    obtain ⟨d, hit⟩ := pre.homeBlocks v inHome
    exact ⟨_, merged.edited.block_of hit⟩
  · intro v inHome dest edge
    obtain ⟨d, hit⟩ := pre.homeBlocks v inHome
    rw [merged.succsOf hit] at edge
    split at edge
    · exact pre.homeSuccs b (pre.listed b merged.right) dest edge
    · split at edge
      · cases edge
      · exact pre.homeSuccs v inHome dest edge

theorem reaches (path : t.Reaches entry v) : g.Reaches entry v ∧ v ∈ t.layout f := by
  induction path with
  | start => exact ⟨.start, merged.mem_layout_iff.2 ⟨merged.before.entry_mem, merged.away.symm⟩⟩
  | @next source dest _ goes ih =>
    obtain ⟨path, mem⟩ := ih
    refine ⟨?_, merged.structured.targets source mem dest goes⟩
    obtain ⟨_, _, here | ⟨rfl, there⟩⟩ := merged.exits_cases mem goes
    · exact path.next here
    · exact (path.next merged.block_mem_exits).next there

theorem reached {v : ValueId}
    (path : g.Reaches entry v) : t.Reaches entry v ∨ v = b ∧ t.Reaches entry pred := by
  induction path with
  | start => exact .inl .start
  | @next source dest pre goes ih =>
    have mem := pre.mem_layout merged.formed merged.before.entry_mem
    rcases ih with here | ⟨rfl, here⟩
    · by_cases isPred : source = pred
      · subst isPred
        exact .inr ⟨merged.eq_block goes, here⟩
      · by_cases hb : source = b
        · subst hb
          have bad := here.mem_layout merged.structured (merged.mem_layout_iff.2 ⟨merged.before.entry_mem, merged.away.symm⟩)
          exact absurd rfl (merged.mem_layout_iff.1 bad).2
        · exact .inl (here.next (by rwa [merged.exits mem isPred hb]))
    · exact .inl (here.next (by rwa [merged.exits_pred]))

theorem sameInst (isIn : v ∈ g.layout f) (mem : i ∈ g.code v) (notJump : i ≠ jump) :
    g.SameInst t i := by
  refine ⟨merged.opcode? i, merged.edited.ty? i, merged.edited.attr? ?_ i, ?_⟩
  · intro w d
    split <;> rfl
  · have bs : t.isBlock = g.isBlock := funext merged.edited.isBlock
    rw [dataOperands, merged.operandsOf_inst isIn mem notJump, dataOperands, bs]
    have left := merged.formed.isBlock merged.left
    have right := merged.formed.isBlock merged.right
    induction g.operandsOf i with
    | nil => rfl
    | cons dest tl ih =>
      unfold redirected at ih ⊢
      by_cases eq : dest = some b
      · simpa [eq, left, right] using ih
      · rw [map_cons, if_neg eq, filter_cons, filter_cons, ih]

end

/-- What is left of a block before the blocks were merged, as it is left afterwards. -/
def place (jump : ValueId) (appended rest : List ValueId) : List ValueId :=
  if rest.getLast? = some jump then rest.dropLast ++ appended else rest

private theorem place_code (merged : g.Appended t f entry home pred b jump) (mem : v ∈ g.layout f) :
    place jump (g.code b) (g.code v) = if v = pred then t.code pred else g.code v := by
  obtain ⟨last, ends, _⟩ := merged.formed.lastOf_isSome mem
  have final : (g.code v).getLast? = some last := (Option.filter_eq_some_iff.1 ends).1
  rw [place, final]
  by_cases isPred : v = pred
  · subst isPred
    rw [if_pos rfl, merged.code_pred, if_pos]
    exact ends.symm.trans merged.ends
  · rw [if_neg isPred, if_neg]
    rintro ⟨⟩
    exact isPred (merged.eq_pred_of_jump_mem mem (lastOf_mem ends).1)

private theorem place_cons (more : tail ≠ []) (jump : ValueId) (appended : List ValueId) :
    place jump appended (i :: tail) = i :: place jump appended tail := by
  obtain ⟨next, tl, rfl⟩ := exists_cons_of_ne_nil more
  unfold place
  rw [getLast?_cons_cons]
  split
  · rfl
  · rfl

section
variable (merged : g.Appended t f entry home pred b jump)
include merged

theorem next?_eq (running : g.Running entry (i :: tail)) (notJump : i ≠ jump) (choice : Bool) :
    t.next? i choice = g.next? i choice ∧ g.next? i choice ≠ some b := by
  obtain ⟨v, path, suffix⟩ := running
  have isIn := path.mem_layout merged.formed merged.before.entry_mem
  have mem : i ∈ g.code v := suffix.subset (mem_cons_self ..)
  have absent : b ∉ g.targetsOf i := by
    intro goes
    by_cases last : g.isTerminator i
    · have ends := (merged.formed.nil_of_terminator isIn suffix last).2
      have isPred := merged.eq_pred isIn (Structured.exits_of_lastOf ends ▸ goes)
      rw [isPred, merged.ends] at ends
      exact notJump (Option.some.inj ends).symm
    · exact last (isTerminator_of_mem_targetsOf goes)
  refine ⟨?_, fun goes => absent (merged.formed.consistent.next?_mem goes)⟩
  rw [merged.edited.consistent.next?, merged.formed.consistent.next?, merged.opcode? i,
    merged.targetsOf_inst isIn mem notJump absent]

/-- Passing over the jump between the two blocks is the only difference. -/
theorem follows : g.Follows t (place jump (g.code b)) (g.Running entry) (· = [jump]) := by
  have wf := merged.formed
  have s0 := merged.before.entry_mem
  refine ⟨?_, ?_, ?_⟩
  · rintro choices _ running rfl
    obtain ⟨v, path, suffix⟩ := running
    have isPred := merged.eq_pred_of_jump_mem (path.mem_layout wf s0) (suffix.subset (mem_cons_self ..))
    refine ⟨g.code b, ?_, .of_reaches ((isPred ▸ path).next merged.block_mem_exits), ?_, ?_⟩
    · rw [Graph.step, merged.jumps, merged.next?_jump]
      rfl
    · intro eq
      have mem : jump ∈ g.code b := eq ▸ mem_cons_self ..
      exact merged.different (merged.eq_pred_of_jump_mem merged.right mem).symm
    · rw [merged.place_code merged.right, if_neg merged.different.symm]
      simp [place]
  · intro choices tl running moves
    cases tl with
    | nil => rfl
    | cons i tail =>
      obtain ⟨v, path, suffix⟩ := running
      have isIn := path.mem_layout wf s0
      have running : g.Running entry (i :: tail) := ⟨v, path, suffix⟩
      have notJump : i ≠ jump := by
        rintro rfl
        have last : g.isTerminator i := (lastOf_mem merged.ends).2
        exact moves (by rw [(wf.nil_of_terminator isIn suffix last).1])
      refine step_eq_map rfl (merged.opcode? i)
        (fun choice => (merged.next?_eq running notJump choice).1) ?_ ?_ ?_ choices
      · intro choice dest goes
        have nb : dest ≠ b := by
          rintro rfl
          exact (merged.next?_eq running notJump choice).2 goes
        rw [merged.place_code ((running.next? wf s0 goes).mem_layout wf s0)]
        split
        next isPred => rw [isPred]
        next notPred => exact merged.code notPred nb
      · intro inner
        exact place_cons (wf.cons_of_not_terminator isIn suffix inner) ..
      · intro last
        obtain ⟨rfl, _⟩ := wf.nil_of_terminator isIn suffix last
        exact ⟨[], by simp [place, notJump]⟩
  · intro choices tl i left next running taken
    exact running.step wf s0 taken

theorem sameRuns : g.SameRuns t entry := by
  have s0 := merged.before.entry_mem
  refine merged.follows.sameRuns (.of_reaches .start) ?_ ?_
  · rw [merged.place_code s0]
    split
    next isPred => rw [isPred]
    next notPred => exact (merged.code notPred merged.away.symm).symm
  · intro choices tl i left next running taken
    obtain ⟨tail, rfl⟩ := head_of_step taken
    obtain ⟨v, path, suffix⟩ := running
    refine merged.sameInst (path.mem_layout merged.formed s0) (suffix.subset (mem_cons_self ..)) ?_
    rintro rfl
    rw [Graph.step, merged.jumps, merged.next?_jump] at taken
    cases taken

end

end Appended
end Midend.Graph
