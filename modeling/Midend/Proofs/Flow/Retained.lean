import Midend.Proofs.Flow.Rounds
import Midend.Proofs.Flow.Whole

/-! A function whose blocks are merged still refers only to what it may refer to, and what it
uses is computed before. The results at hand where a block begins are the same as before. -/
namespace Midend.Graph
open List
variable {g t : Graph} {functions gs : List ValueId} {fn entry : ValueId}

section Edited
variable {bs : ValueId → Block → Block} {insts : ValueId → Inst → Inst}
  {refs : ValueId → List (Option ValueId) → List (Option ValueId)}
variable {v : ValueId}

theorem Edited.data (edited : g.Edited t bs insts refs) {k : Kind} (found : g.kind? v = some k)
    (nb : k.isBlock = false) (notInst : k.isInst = false) : t.kind? v = some k := by
  rw [edited.kind? v, found]
  cases k with
  | block => cases nb
  | inst => cases notInst
  | _ => rfl

private theorem Edited.inst_iff (edited : g.Edited t bs insts refs) :
    (∃ d, t.kind? v = some (.inst d)) ↔ ∃ d, g.kind? v = some (.inst d) := by
  rw [edited.kind? v]
  cases g.kind? v with
  | none => simp
  | some k => cases k <;> simp [Kind.edit]

private theorem Result.inst_iff : g.Result v ↔ (∃ d, g.kind? v = some (.inst d)) ∧ g.isTerminator v = false := by
  constructor
  · intro ⟨d, found, inner⟩
    exact ⟨⟨d, found⟩, by rw [isTerminator_of_opcode? (opcode?_eq found)]; exact inner⟩
  · intro ⟨⟨d, found⟩, inner⟩
    exact ⟨d, found, by rwa [isTerminator_of_opcode? (opcode?_eq found)] at inner⟩

theorem Edited.result (edited : g.Edited t bs insts refs) (same : ∀ v d, (insts v d).opcode = d.opcode)
    {v : ValueId} (result : g.Result v) : t.Result v := by
  rw [Result.inst_iff] at result ⊢
  refine ⟨edited.inst_iff.2 result.1, ?_⟩
  rw [isTerminator, edited.opcode? same, ← isTerminator]
  exact result.2

end Edited

namespace SameFlow
variable {v : ValueId}

section
variable (same : g.SameFlow t fn)
include same

theorem data {k : Kind} (found : g.kind? v = some k)
    (nb : k.isBlock = false) : t.kind? v = some k := by
  obtain ⟨edit, kinds⟩ := same.kinds v
  rw [kinds, found]
  cases k with
  | block => cases nb
  | _ => rfl

theorem inst_of {d : Inst} (found : t.kind? v = some (.inst d)) : g.kind? v = some (.inst d) := by
  obtain ⟨edit, kinds⟩ := same.kinds v
  rw [kinds] at found
  obtain ⟨k, old, edited⟩ := Option.map_eq_some_iff.1 found
  cases k with
  | inst => cases edited; exact old
  | _ => cases edited

theorem part {v : ValueId} (part : g.Part fn v) : t.Part fn v := by
  cases part with
  | self => exact .self
  | block mem => exact .block (same.layout ▸ mem)
  | inst mem isIn => exact .inst (same.layout ▸ mem) (by rwa [same.code])

theorem tracked (wf : g.Structured fn)
    (head : (t.operandsOf fn).head? = some (some entry)) (tracked : g.Tracked functions gs fn entry) :
    t.Tracked functions gs fn entry := by
  have layout := same.layout
  have instOperands : ∀ block ∈ g.layout fn, ∀ inst ∈ g.code block, t.operandsOf inst = g.operandsOf inst := by
    intro block mem inst isIn
    exact same.operandsOf inst (wf.inst_ne_func mem isIn)
  refine ⟨head, ?_, ?_, ?_, ?_, ?_⟩
  · rw [layout]
    intro block mem inst isIn slot held
    rw [same.code] at isIn
    rw [instOperands block mem inst isIn] at held
    cases tracked.operands block mem inst isIn slot held with
    | shared shared =>
      exact .shared (shared.stays (fun _ _ found nb _ => same.data found nb) (List.Subset.refl _)
        (List.Subset.refl _))
    | target ends into => exact .target (by rwa [same.isTerminator]) (layout ▸ into)
    | result found inner => exact .result (same.data found rfl) (by rwa [same.isTerminator])
  · rw [layout]
    intro block mem
    rw [same.code]
    exact tracked.once block mem
  · obtain ⟨av, covered⟩ := tracked.covered
    refine ⟨av, covered.bare, ?_, ?_, ?_⟩
    · intro block v old
      obtain ⟨d, found, inner⟩ := covered.inner block v old
      exact ⟨d, same.data found rfl, inner⟩
    · rw [layout]
      intro block mem next goes v old
      rw [same.exits wf] at goes
      rw [same.code]
      exact covered.edges block mem next goes v old
    · rw [layout]
      intro block mem inst isIn v d used found
      rw [same.code] at isIn
      rw [instOperands block mem inst isIn] at used
      rw [same.code, same.code]
      exact covered.results block mem inst isIn v d used (same.inst_of found)
  · exact tracked.recorded.congr (by rw [layout]) (fun block _ => same.exits wf block) fun block mem =>
      same.operandsOf block (wf.block_ne_func mem)
  · rw [layout]
    intro block mem user held
    by_cases isFunc : user = fn
    · exact isFunc ▸ .self
    · rw [same.operandsOf user isFunc] at held
      exact same.part (tracked.owned block mem user held)

theorem housed (wf : g.Structured fn) (housed : g.Housed fn) : t.Housed fn := by
  rw [Housed, same.layout]
  intro block mem inst isIn v d used found
  rw [same.code] at isIn
  rw [same.operandsOf inst (wf.inst_ne_func mem isIn)] at used
  obtain ⟨home, inLayout, computed⟩ := housed block mem inst isIn v d used (same.inst_of found)
  exact ⟨home, inLayout, by rwa [same.code]⟩

end

end SameFlow

namespace Without
variable {block : ValueId}
variable {v : ValueId}

section
variable (removed : g.Without t fn block)
include removed

private theorem operandsOf_self : t.operandsOf block = [] := by
  rw [removed.edited.operandsOf block, if_pos (.inl rfl)]
  rfl

private theorem operandsOf_gone {inst : ValueId} (isIn : inst ∈ g.code block) : t.operandsOf inst = [] := by
  rw [removed.edited.operandsOf inst, if_pos (.inr isIn)]
  rfl

private theorem operandsOf_block (mem : v ∈ g.layout fn) (ne : v ≠ block) :
    t.operandsOf v = (g.operandsOf v).filter (· ≠ some block) := by
  have notInst : v ∉ g.code block := fun isIn =>
    removed.formed.inst_ne_block removed.member isIn mem rfl
  rw [removed.edited.operandsOf v, if_neg (not_or.2 ⟨ne, notInst⟩), if_neg (removed.formed.block_ne_func mem)]

theorem incoming (ne : v ≠ block) : t.incoming fn v = (g.incoming fn v).filter (· ≠ some block) := by
  have kept : ∀ pred ∈ g.layout fn, pred ≠ block → t.incomingFrom v pred = g.incomingFrom v pred := by
    intro pred mem other
    rw [incomingFrom, removed.exits mem other, count_filter (by simpa using ne), incomingFrom]
  rw [Graph.incoming, removed.layout, Graph.incoming, filter_flatMap]
  generalize g.layout fn = bs at kept
  induction bs with
  | nil => rfl
  | cons pred tl ih =>
    have tl := ih fun other mem => kept other (mem_cons_of_mem _ mem)
    by_cases gone : pred = block
    · rw [filter_cons_of_neg (by simp [gone]), flatMap_cons, tl, incomingFrom, gone, filter_replicate]
      simp
    · rw [filter_cons_of_pos (by simp [gone]), flatMap_cons, flatMap_cons, tl,
        kept pred mem_cons_self gone, incomingFrom, filter_replicate]
      simp [gone]

theorem part {user : ValueId} {slot : Option ValueId}
    (held : slot ∈ t.operandsOf user) (part : g.Part fn user) : t.Part fn user := by
  cases part with
  | self => exact .self
  | block mem =>
    refine .block (removed.mem_layout_iff.2 ⟨mem, fun gone => ?_⟩)
    rw [gone, removed.operandsOf_self] at held
    cases held
  | @inst other _ mem isIn =>
    have stays : other ≠ block := by
      intro gone
      rw [removed.operandsOf_gone (gone ▸ isIn)] at held
      cases held
    exact .inst (removed.mem_layout_iff.2 ⟨mem, stays⟩) (by rwa [removed.code stays])

theorem operand {inst : ValueId} {slot : Option ValueId} (kept : slot ≠ some block)
    (arg : g.Operand functions gs fn inst slot) : t.Operand functions gs fn inst slot := by
  cases arg with
  | shared shared =>
    exact .shared (shared.stays (fun _ _ => removed.edited.data) (List.Subset.refl _) (List.Subset.refl _))
  | target ends into =>
    exact .target (by rwa [removed.isTerminator]) (removed.mem_layout_iff.2 ⟨into, fun same => kept (same ▸ rfl)⟩)
  | result found inner => exact .result (removed.edited.inst_of found) (by rwa [removed.isTerminator])

/-- Appending a block keeps every use after what it uses. -/
theorem covered {avail : ValueId → ValueId → Prop} (ne : block ≠ entry)
    (covered : g.Covered fn entry avail) : t.Covered fn entry avail := by
  refine ⟨covered.bare, fun v w known => removed.edited.result (fun _ _ => rfl) (covered.inner v w known), ?_, ?_⟩
  · intro v mem next goes w known
    obtain ⟨into, other⟩ := removed.mem_layout_iff.1 mem
    rw [removed.exits into other] at goes
    rw [removed.code other]
    exact covered.edges v into next (mem_filter.1 goes).1 w known
  · intro v mem inst isIn w d used found
    obtain ⟨into, other⟩ := removed.mem_layout_iff.1 mem
    rw [removed.code other] at isIn ⊢
    rw [removed.code ne.symm]
    obtain ⟨old, wasInst⟩ := removed.edited.inst_iff.1 ⟨d, found⟩
    exact covered.results v into inst isIn w old (removed.mem_operandsOf used) wasInst

theorem tracked (ne : block ≠ entry)
    (tracked : g.Tracked functions gs fn entry) : t.Tracked functions gs fn entry := by
  refine ⟨?_, ?_, ?_, ?_, ?_, ?_⟩
  · rw [removed.operandsOf_func, vacated, head?_map, tracked.head]
    simp [ne.symm]
  · intro v mem inst isIn slot held
    obtain ⟨into, other⟩ := removed.mem_layout_iff.1 mem
    rw [removed.code other] at isIn
    rw [removed.operandsOf_inst into other isIn, mem_filter] at held
    exact removed.operand (by simpa using held.2) (tracked.operands v into inst isIn slot held.1)
  · intro v mem
    obtain ⟨into, other⟩ := removed.mem_layout_iff.1 mem
    rw [removed.code other]
    exact tracked.once v into
  · obtain ⟨av, covered⟩ := tracked.covered
    exact ⟨av, removed.covered ne covered⟩
  · intro v mem
    obtain ⟨into, other⟩ := removed.mem_layout_iff.1 mem
    rw [removed.operandsOf_block into other, removed.incoming other]
    exact (tracked.recorded v into).filter _
  · intro v mem user held
    have old := tracked.owned v (removed.mem_layout_iff.1 mem).1 user (removed.mem_operandsOf held)
    exact removed.part held old

end

end Without

private theorem pair_sublist_of_concat {α : Type} {front : List α} {x y last : α} (pair : [x, y].Sublist (front ++ [last]))
    (other : y ≠ last) : [x, y].Sublist front := by
  obtain ⟨left, right, split, within, tl⟩ := sublist_append_iff.1 pair
  rcases sublist_singleton.1 tl with rfl | rfl
  · rw [append_nil] at split
    exact split ▸ within
  · exact absurd (append_inj_right' (show [x] ++ [y] = left ++ [last] from split) rfl) (by simpa using other)

namespace Appended
variable {home : List ValueId} {pred block jump : ValueId}
variable {v inst : ValueId}

section
variable (merged : g.Appended t fn entry home pred block jump)
include merged

private theorem isTerminator_jump : g.isTerminator jump :=
  (lastOf_mem merged.ends).2

theorem operandsOf_block (mem : v ∈ g.layout fn) (ne : v ≠ block) :
    t.operandsOf v = redirected pred block (g.operandsOf v) := by
  have notJump : v ≠ jump := (merged.formed.inst_ne_block merged.left merged.jump_mem mem).symm
  rw [merged.edited.operandsOf v, if_neg (not_or.2 ⟨ne, notJump⟩), if_neg (merged.formed.block_ne_func mem)]

theorem operandsOf_gone (gone : v = block ∨ v = jump) : t.operandsOf v = [] := by
  rw [merged.edited.operandsOf v, if_pos gone]

theorem code_split : g.code pred = (g.code pred).dropLast ++ [jump] :=
  (dropLast_append_getLast? jump (Option.filter_eq_some_iff.1 merged.ends).1).symm

private theorem mem_dropLast (isIn : v ∈ g.code pred) (notJump : v ≠ jump) : v ∈ (g.code pred).dropLast := by
  rw [merged.code_split] at isIn
  exact (mem_append.1 isIn).resolve_right fun last => notJump (mem_singleton.1 last)

theorem mem_code_of (ne : v ≠ block)
    (isIn : inst ∈ g.code v) (notJump : inst ≠ jump) : inst ∈ t.code v := by
  by_cases isPred : v = pred
  · subst isPred
    rw [merged.code_pred]
    exact mem_append_left _ (merged.mem_dropLast isIn notJump)
  · rwa [merged.code isPred ne]

private theorem ne_jump (mem : v ∈ t.layout fn) (isIn : inst ∈ t.code v) : inst ≠ jump := by
  intro same
  obtain ⟨into, ne⟩ := merged.mem_layout_iff.1 mem
  by_cases isPred : v = pred
  · rw [isPred, merged.code_pred, mem_append] at isIn
    rcases isIn with early | late
    · obtain ⟨body, last, cs, _, inner⟩ := merged.formed.terminated pred merged.left
      rw [cs, dropLast_concat] at early
      exact inner inst early (same ▸ merged.isTerminator_jump)
    · exact merged.different (merged.eq_pred_of_jump_mem merged.right (same ▸ late)).symm
  · rw [merged.code isPred ne] at isIn
    exact isPred (merged.eq_pred_of_jump_mem into (same ▸ isIn))

theorem origin (mem : v ∈ t.layout fn) (isIn : inst ∈ t.code v) :
    ∃ old ∈ g.layout fn, inst ∈ g.code old := by
  obtain ⟨into, ne⟩ := merged.mem_layout_iff.1 mem
  rcases merged.mem_code ne isIn with here | ⟨_, there⟩
  · exact ⟨v, into, here⟩
  · exact ⟨block, merged.right, there⟩

theorem part {user : ValueId} {slot : Option ValueId}
    (held : slot ∈ t.operandsOf user) (part : g.Part fn user) : t.Part fn user := by
  have kept : user ≠ block ∧ user ≠ jump := by
    refine not_or.1 fun gone => ?_
    rw [merged.operandsOf_gone gone] at held
    cases held
  cases part with
  | self => exact .self
  | block mem => exact .block (merged.mem_layout_iff.2 ⟨mem, kept.1⟩)
  | @inst other _ mem isIn =>
    by_cases hb : other = block
    · refine .inst (merged.mem_layout_iff.2 ⟨merged.left, merged.different⟩) ?_
      rw [merged.code_pred]
      exact mem_append_right _ (hb ▸ isIn)
    · exact .inst (merged.mem_layout_iff.2 ⟨mem, hb⟩) (merged.mem_code_of hb isIn kept.2)

theorem operand {inst : ValueId} {slot : Option ValueId} (arg : g.Operand functions gs fn inst slot) :
    t.Operand functions gs fn inst (if slot = some block then some pred else slot) := by
  obtain ⟨d, hb⟩ := merged.formed.blocks block merged.right
  cases arg with
  | @shared v shared =>
    obtain ⟨k, found, nb, _⟩ := shared.data
    have other : some v ≠ some block := by
      rintro ⟨⟩
      cases found.symm.trans hb
      cases nb
    rw [if_neg other]
    exact .shared (shared.stays (fun _ _ => merged.edited.data) (List.Subset.refl _) (List.Subset.refl _))
  | @target v ends into =>
    have ends : t.isTerminator inst := by rwa [merged.isTerminator]
    split
    · exact .target ends (merged.mem_layout_iff.2 ⟨merged.left, merged.different⟩)
    next other => exact .target ends (merged.mem_layout_iff.2 ⟨into, fun same => other (congrArg some same)⟩)
  | @result v data' found inner =>
    have other : some v ≠ some block := by
      rintro ⟨⟩
      cases found.symm.trans hb
    rw [if_neg other]
    exact .result (merged.edited.inst_of found) (by rwa [merged.isTerminator])

theorem carried {av : ValueId → ValueId → Prop}
    (covered : g.Covered fn entry av) (old : av block v) : av pred v ∨ v ∈ (g.code pred).dropLast := by
  refine (covered.edges pred merged.left block merged.block_mem_exits v old).imp_right fun isIn => ?_
  refine merged.mem_dropLast isIn fun same => ?_
  obtain ⟨d, found, inner⟩ := covered.inner block v old
  have ends := merged.isTerminator_jump
  rw [← same, isTerminator_of_opcode? (opcode?_eq found), inner] at ends
  cases ends

theorem covered {avail : ValueId → ValueId → Prop}
    (operands : ∀ block ∈ g.layout fn, ∀ inst ∈ g.code block, ∀ slot ∈ g.operandsOf inst,
      g.Operand functions gs fn inst slot)
    (covered : g.Covered fn entry avail) : t.Covered fn entry avail := by
  have sameOpcode : ∀ v (d : Inst), (if v ∈ g.code block then { d with parent := pred } else d).opcode =
      d.opcode := by
    intro v d
    split <;> rfl
  refine ⟨covered.bare, fun v w known => merged.edited.result sameOpcode (covered.inner v w known), ?_, ?_⟩
  · intro v mem next goes w known
    obtain ⟨into, ne⟩ := merged.mem_layout_iff.1 mem
    obtain ⟨_, notBlock, old⟩ := merged.exits_cases mem goes
    by_cases isPred : v = pred
    · subst isPred
      rw [merged.code_pred, mem_append]
      rcases old with direct | ⟨_, late⟩
      · exact absurd (merged.eq_block direct) notBlock
      · rcases covered.edges block merged.right next late w known with before | here
        · exact (merged.carried covered before).imp_right .inl
        · exact .inr (.inr here)
    · rw [merged.code isPred ne]
      exact covered.edges v into next (old.resolve_right fun late => isPred late.1) w known
  · intro v mem inst isIn w d used found
    obtain ⟨into, ne⟩ := merged.mem_layout_iff.1 mem
    obtain ⟨origin, known, wasListed⟩ := merged.origin mem isIn
    have notJump := merged.ne_jump mem isIn
    obtain ⟨old, wasInst⟩ := merged.edited.inst_iff.1 ⟨d, found⟩
    have wasUsed : some w ∈ g.operandsOf inst := by
      refine (merged.mem_operandsOf used).resolve_right fun isPred => ?_
      obtain ⟨predData, isBlock⟩ := merged.formed.blocks pred merged.left
      rw [isPred.1, isBlock] at wasInst
      cases wasInst
    have result : w ≠ jump := by
      intro same
      have inner := (operands origin known inst wasListed _ wasUsed).inner merged.formed wasInst
      exact absurd (same ▸ merged.isTerminator_jump) (by simp [inner])
    have early : w ∈ g.code entry → w ∈ t.code entry := fun first =>
      merged.mem_code_of merged.away.symm first result
    rcases merged.mem_code ne isIn with here | ⟨isPred, there⟩
    · rcases covered.results v into inst here w old wasUsed wasInst with pair | known | ⟨other, first⟩
      · left
        by_cases isPred : v = pred
        · subst isPred
          rw [merged.code_split] at pair
          rw [merged.code_pred]
          exact (pair_sublist_of_concat pair notJump).trans (sublist_append_left ..)
        · rwa [merged.code isPred ne]
      · exact .inr (.inl known)
      · exact .inr (.inr ⟨other, early first⟩)
    · subst isPred
      have behind : w ∈ (g.code v).dropLast → [w, inst].Sublist (t.code v) := by
        intro before
        rw [merged.code_pred]
        exact (singleton_sublist.2 before).append (singleton_sublist.2 there)
      rcases covered.results block merged.right inst there w old wasUsed wasInst with pair | known | ⟨_, first⟩
      · left
        rw [merged.code_pred]
        exact pair.trans (sublist_append_right ..)
      · rcases merged.carried covered known with still | before
        · exact .inr (.inl still)
        · exact .inl (behind before)
      · by_cases start : v = entry
        · subst start
          exact .inl (behind (merged.mem_dropLast first result))
        · exact .inr (.inr ⟨start, early first⟩)

end

open scoped List in
theorem incoming (merged : g.Appended t fn entry home pred block jump) (ne : v ≠ block) :
    (redirected pred block (g.incoming fn v)).Perm (t.incoming fn v) := by
  have redirect : ∀ p, redirected pred block (g.incomingFrom v p) =
      List.replicate ((g.exits p).count v) (if p = block then some pred else some p) := by
    intro p
    rw [incomingFrom, redirected, map_replicate]
    by_cases same : p = block <;> simp [same]
  have bare : redirected pred block (g.incomingFrom v pred) = [] := by
    rw [redirect, count_eq_zero.2 fun goes => ne (merged.eq_block goes), replicate_zero]
  have moved : redirected pred block (g.incomingFrom v block) = t.incomingFrom v pred := by
    rw [redirect, if_pos rfl, incomingFrom, merged.exits_pred]
  have kept : ∀ p ∈ t.layout fn, p ≠ pred →
      t.incomingFrom v p = redirected pred block (g.incomingFrom v p) := by
    intro p mem notPred
    obtain ⟨into, nb⟩ := merged.mem_layout_iff.1 mem
    rw [redirect, if_neg nb, incomingFrom, merged.exits into notPred nb]
  have split : (g.layout fn).Perm (block :: t.layout fn) := by
    have erased : (g.layout fn).erase block = t.layout fn := by
      rw [merged.layout, merged.formed.nodup.erase_eq_filter]
      exact filter_congr fun p _ => by grind
    exact erased ▸ perm_cons_erase merged.right
  have upd := perm_flatMap_change merged.structured.nodup
    (merged.mem_layout_iff.2 ⟨merged.left, merged.different⟩) kept
  rw [bare, append_nil, ← moved] at upd
  calc redirected pred block (g.incoming fn v)
      _ = (g.layout fn).flatMap fun p => redirected pred block (g.incomingFrom v p) := by
        rw [redirected, Graph.incoming, map_flatMap]
        rfl
      _ ~ (block :: t.layout fn).flatMap fun p => redirected pred block (g.incomingFrom v p) :=
        split.flatMap_right _
      _ ~ t.incoming fn v := by
        rw [flatMap_cons]
        exact perm_append_comm.trans upd.symm

theorem tracked (merged : g.Appended t fn entry home pred block jump)
    (tracked : g.Tracked functions gs fn entry) : t.Tracked functions gs fn entry := by
  refine ⟨merged.merging.first, ?_, ?_, ?_, ?_, ?_⟩
  · intro v mem inst isIn slot held
    obtain ⟨old, into, wasListed⟩ := merged.origin mem isIn
    rw [merged.operandsOf_inst into wasListed (merged.ne_jump mem isIn)] at held
    obtain ⟨pre, wasHeld, rfl⟩ := mem_map.1 held
    exact merged.operand (tracked.operands old into inst wasListed pre wasHeld)
  · intro v mem
    obtain ⟨into, ne⟩ := merged.mem_layout_iff.1 mem
    by_cases isPred : v = pred
    · rw [isPred, merged.code_pred]
      refine ((tracked.once pred merged.left).sublist (dropLast_sublist _)).append (tracked.once block merged.right) ?_
      intro inst left right
      exact merged.different (merged.formed.apart pred merged.left block merged.right inst
        ((dropLast_sublist _).subset left) right)
    · rw [merged.code isPred ne]
      exact tracked.once v into
  · obtain ⟨av, covered⟩ := tracked.covered
    exact ⟨av, merged.covered tracked.operands covered⟩
  · intro v mem
    obtain ⟨into, ne⟩ := merged.mem_layout_iff.1 mem
    rw [merged.operandsOf_block into ne]
    exact ((tracked.recorded v into).map _).trans (merged.incoming ne)
  · intro v mem user held
    refine merged.part held ?_
    rcases merged.mem_operandsOf held with old | ⟨_, other⟩
    · exact tracked.owned v (merged.mem_layout_iff.1 mem).1 user old
    · exact tracked.owned block merged.right user other

end Appended

section Steps
variable {home : List ValueId}

theorem MergeStep.tracked (step : MergeStep fn entry home g t)
    (tracked : g.Tracked functions gs fn entry) : t.Tracked functions gs fn entry := by
  cases step with
  | removed _ away _ removed => exact removed.tracked away tracked
  | appended merged => exact merged.tracked tracked
  | tidied merging tidied => exact tidied.sameFlow.tracked merging.toStructured (tidied.head tracked.head) tracked

theorem MergeSteps.tracked (steps : MergeSteps fn entry home g t)
    (tracked : g.Tracked functions gs fn entry) : t.Tracked functions gs fn entry := by
  induction steps with
  | refl => exact tracked
  | tail _ step ih => exact step.tracked ih

theorem Tracked.housed (tracked : g.Tracked functions gs fn entry) (wf : g.Structured fn)
    (reached : ∀ block ∈ g.layout fn, g.Reaches entry block) : g.Housed fn := by
  intro block mem inst isIn v d used found
  obtain ⟨av, covered⟩ := tracked.covered
  obtain ⟨passed, path⟩ := Path.of_reaches (reached block mem)
  obtain ⟨front, tl, split⟩ := append_of_mem isIn
  have computed := covered.computed_before wf.targets tracked.entry_mem path split (tracked.once block mem)
    used found
  rcases mem_append.1 computed with pre | here
  · obtain ⟨home, isPassed, inHome⟩ := mem_flatMap.1 pre
    exact ⟨home, (path.mem_layout wf.targets tracked.entry_mem).2 home isPassed, inHome⟩
  · exact ⟨block, mem, by rw [split]; exact mem_append_left _ here⟩

end Steps
end Midend.Graph
