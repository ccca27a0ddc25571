import Midend.Proofs.Flow.Steps
import Midend.Proofs.Flow.WellFormed

/-! The state in which blocks are merged, and the removal of a block that control cannot
reach: it keeps that state and all runs of the function. -/
namespace Midend.Graph
open List
variable {f b : ValueId} {g : Graph}

/-- A well-formed function in the middle of merging. The derived edges between its blocks are
those of the terminators. An edge may also lead to a block that was removed before, which is
why they are told apart from `home`, the blocks that were there in the beginning. -/
structure Merging (g : Graph) (func entry : ValueId) (home : List ValueId) : Prop
    extends g.Structured func where
  first : (g.operandsOf func).head? = some (some entry)
  succs : ∀ block ∈ g.layout func, ∀ target ∈ g.layout func,
    (target ∈ g.succsOf block ↔ target ∈ g.exits block)
  preds : ∀ block ∈ g.layout func, ∀ source,
    (source ∈ g.predsOf block ↔ source ∈ g.layout func ∧ block ∈ g.succsOf source)
  listed : ∀ block ∈ g.layout func, block ∈ home
  homeBlocks : ∀ block ∈ home, ∃ data, g.kind? block = some (.block data)
  homeSuccs : ∀ block ∈ home, ∀ target ∈ g.succsOf block, target ∈ home

theorem Merging.entry_mem {entry : ValueId} {home : List ValueId} (merging : g.Merging f entry home) :
    entry ∈ g.layout f :=
  mem_layout.2 (mem_of_head? merging.first)

theorem Edited.function_of {t : Graph} {bs : ValueId → Block → Block} {insts : ValueId → Inst → Inst}
    {refs : ValueId → List (Option ValueId) → List (Option ValueId)} (edited : g.Edited t bs insts refs)
    {v : ValueId} {d : Func} (hit : g.kind? v = some (.function d)) : t.kind? v = some (.function d) := by
  rw [edited.kind? v, hit]
  rfl

private theorem filterMap_filter_ne (refs : List (Option ValueId)) (b : ValueId) :
    (refs.filter (· ≠ some b)).filterMap id = (refs.filterMap id).filter (· ≠ b) := by
  induction refs with
  | nil => rfl
  | cons dest tl ih =>
    cases dest with
    | none => simpa using ih
    | some v =>
      by_cases eq : v = b
      · simpa [eq] using ih
      · simpa [eq] using ih

private theorem drop_filter_ne {refs : List (Option ValueId)} (away : refs.head? ≠ some (some b)) :
    (refs.filter (· ≠ some b)).drop 1 = (refs.drop 1).filter (· ≠ some b) := by
  cases refs with
  | nil => rfl
  | cons dest tl =>
    have ne : dest ≠ some b := fun eq => away (congrArg some eq)
    simp [ne]

structure Without (g after : Graph) (func block : ValueId) : Prop where
  edited : g.Edited after (withoutBlock block (g.succsOf block)) (fun _ i => i)
    (fun v old =>
      (if v = block ∨ v ∈ g.code block then [] else if v = func then vacated block old else old).filter
        (· ≠ some block))
  formed : g.Structured func
  member : block ∈ g.layout func

theorem Structured.removeBlock (wf : g.Structured f) (mem : b ∈ g.layout f)
    (succs : ∀ v ∈ g.succsOf b, ∃ d, g.kind? v = some (.block d)) :
    ∃ t, g.removeBlock f b = .ok t ∧ g.Without t f b := by
  obtain ⟨d, hit⟩ := wf.blocks b mem
  have insts : ∀ v ∈ d.insts, v.index < g.values.size := by
    intro v isIn
    obtain ⟨i, old⟩ := wf.insts b mem v (code_of_kind? hit ▸ isIn)
    exact lt_of_kind? old
  obtain ⟨t, done, edited⟩ := wf.consistent.removeBlock wf.inside wf.nodup hit
    (succsOf_of_kind? hit ▸ succs) insts
  refine ⟨t, done, ?_, wf, mem⟩
  rw [succsOf_of_kind? hit, code_of_kind? hit]
  exact edited

namespace Without
variable {g t : Graph} {f b : ValueId}
variable {v i : ValueId} {d : Block}

section
variable (removed : g.Without t f b)
include removed

theorem func_ne : f ≠ b :=
  (removed.formed.block_ne_func removed.member).symm

private theorem func_not_mem : f ∉ g.code b :=
  fun mem => removed.formed.inst_ne_func removed.member mem rfl

theorem operandsOf_func : t.operandsOf f = vacated b (g.operandsOf f) := by
  rw [removed.edited.operandsOf f, if_neg (not_or.2 ⟨removed.func_ne, removed.func_not_mem⟩),
    if_pos rfl, filter_eq_self]
  intro dest mem
  have gone : some b ∉ vacated b (g.operandsOf f) := fun hit => (mem_vacated.1 hit).2 rfl
  simpa using fun eq : dest = some b => gone (eq ▸ mem)

theorem layout : t.layout f = (g.layout f).filter (· ≠ b) := by
  rw [Graph.layout, removed.operandsOf_func, filterMap_vacated, Graph.layout]

end

theorem mem_layout_iff (removed : g.Without t f b) {v : ValueId} :
    v ∈ t.layout f ↔ v ∈ g.layout f ∧ v ≠ b := by
  rw [removed.layout, mem_filter]
  simp

section
variable (removed : g.Without t f b)
include removed

theorem code (ne : v ≠ b) : t.code v = g.code v :=
  removed.edited.code_eq fun _ _ => if_neg ne

theorem succsOf (hit : g.kind? v = some (.block d)) : t.succsOf v = if v = b then [] else g.succsOf v := by
  rw [succsOf_of_kind? (removed.edited.block_of hit), succsOf_of_kind? hit, withoutBlock]

theorem predsOf (hit : g.kind? v = some (.block d)) : t.predsOf v =
      if v ∈ g.succsOf b then (g.predsOf v).filter (· ≠ b) else g.predsOf v := by
  rw [predsOf_of_kind? (removed.edited.block_of hit), predsOf_of_kind? hit, withoutBlock]

theorem opcode? (v : ValueId) : t.opcode? v = g.opcode? v :=
  removed.edited.opcode? (fun _ _ => rfl) v

theorem isTerminator (v : ValueId) : t.isTerminator v = g.isTerminator v := by
  rw [Graph.isTerminator, removed.opcode? v, Graph.isTerminator]

theorem lastOf (ne : v ≠ b) : t.lastOf v = g.lastOf v := by
  have eq : t.isTerminator = g.isTerminator := funext removed.isTerminator
  rw [Graph.lastOf, removed.code ne, eq, Graph.lastOf]

/-- An instruction of a block that stays refers to what it referred to before, apart from
the block that goes. -/
theorem operandsOf_inst (isIn : v ∈ g.layout f) (ne : v ≠ b) (mem : i ∈ g.code v) :
    t.operandsOf i = (g.operandsOf i).filter (· ≠ some b) := by
  have nb := removed.formed.inst_ne_block isIn mem removed.member
  have notFunc := removed.formed.inst_ne_func isIn mem
  have notListed : i ∉ g.code b := fun both =>
    ne (removed.formed.apart v isIn b removed.member i mem both)
  rw [removed.edited.operandsOf i, if_neg (not_or.2 ⟨nb, notListed⟩), if_neg notFunc]

theorem targetsOf_inst (isIn : v ∈ g.layout f) (ne : v ≠ b) (mem : i ∈ g.code v) :
    t.targetsOf i = (g.targetsOf i).filter (· ≠ b) := by
  rw [targetsOf, removed.opcode? i, removed.operandsOf_inst isIn ne mem, targetsOf]
  cases hit : g.opcode? i with
  | none => rfl
  | some op =>
    cases op with
    | jmp => exact filterMap_filter_ne ..
    | br =>
      have away := removed.formed.conditions i b removed.member hit
      simp only [drop_filter_ne away]
      exact filterMap_filter_ne ..
    | _ => rfl

theorem exits (mem : v ∈ g.layout f) (ne : v ≠ b) :
    t.exits v = (g.exits v).filter (· ≠ b) := by
  rw [Graph.exits, removed.lastOf ne, Graph.exits]
  cases ends : g.lastOf v with
  | none => rfl
  | some last => exact removed.targetsOf_inst mem ne (lastOf_mem ends).1

theorem mem_operandsOf {user : ValueId} (mem : some v ∈ t.operandsOf user) : some v ∈ g.operandsOf user := by
  rw [removed.edited.operandsOf user] at mem
  replace mem := (mem_filter.1 mem).1
  split at mem
  · cases mem
  · split at mem
    · exact (mem_vacated.1 mem).1
    · exact mem

theorem head_operandsOf {branch : ValueId}
    (isBranch : g.opcode? branch = some .br) (head : (t.operandsOf branch).head? = some (some v)) :
    (g.operandsOf branch).head? = some (some v) := by
  have notFunc : branch ≠ f := by
    obtain ⟨d, isFn⟩ := removed.formed.function
    rintro rfl
    simp [Graph.opcode?, isFn, Kind.opcode?] at isBranch
  have away := removed.formed.conditions branch b removed.member isBranch
  rw [removed.edited.operandsOf branch, if_neg notFunc] at head
  split at head
  · cases head
  · cases refs : g.operandsOf branch with
    | nil =>
      rw [refs] at head
      cases head
    | cons dest tl =>
      have ne : dest ≠ some b := fun eq => away (by rw [refs, eq]; rfl)
      rw [refs, filter_cons_of_pos (by simpa using ne)] at head
      exact head

theorem structured : t.Structured f := by
  have wf := removed.formed
  have stays := @mem_layout_iff _ _ _ _ removed
  refine ⟨⟨removed.edited.consistent, ?_, ?_, ?_, ?_, ?_, ?_⟩, ?_, ?_⟩
  · obtain ⟨d, hit⟩ := wf.function
    exact ⟨d, removed.edited.function_of hit⟩
  · intro v isIn
    obtain ⟨d, hit⟩ := wf.blocks v (stays.1 isIn).1
    exact ⟨_, removed.edited.block_of hit⟩
  · rw [removed.layout]
    exact wf.nodup.filter _
  · intro v isIn i mem
    obtain ⟨pre, ne⟩ := stays.1 isIn
    rw [removed.code ne] at mem
    obtain ⟨d, hit⟩ := wf.insts v pre i mem
    exact ⟨_, removed.edited.inst_of hit⟩
  · intro v isIn
    obtain ⟨pre, ne⟩ := stays.1 isIn
    simp only [removed.code ne, removed.isTerminator]
    exact wf.terminated v pre
  · intro v isIn dest mem
    obtain ⟨pre, ne⟩ := stays.1 isIn
    rw [removed.exits pre ne, mem_filter] at mem
    exact stays.2 ⟨wf.targets v pre dest mem.1, by simpa using mem.2⟩
  · intro v isIn w listed' i left right
    obtain ⟨pre, ne⟩ := stays.1 isIn
    obtain ⟨before', different'⟩ := stays.1 listed'
    rw [removed.code ne] at left
    rw [removed.code different'] at right
    exact wf.apart v pre w before' i left right
  · intro branch v isIn isBranch head
    rw [removed.opcode? branch] at isBranch
    exact wf.conditions branch v (stays.1 isIn).1 isBranch (removed.head_operandsOf isBranch head)

theorem wellFormed (wf : g.WellFormed f) : t.WellFormed f := by
  refine ⟨removed.structured, ?_⟩
  intro user v isIn mem
  rw [removed.edited.isBlock user, removed.isTerminator user]
  exact wf.references user v (removed.mem_layout_iff.1 isIn).1 (removed.mem_operandsOf mem)

/-- The function is in the middle of merging also after a block was removed. -/
theorem merging {entry : ValueId} {home : List ValueId}
    (pre : g.Merging f entry home) (ne : b ≠ entry) : t.Merging f entry home := by
  have stays := @mem_layout_iff _ _ _ _ removed
  refine ⟨removed.structured, ?_, ?_, ?_, ?_, ?_, ?_⟩
  · rw [removed.operandsOf_func, vacated, head?_map, pre.first]
    simp [ne.symm]
  · intro v mem dest listed'
    obtain ⟨inLayout, away⟩ := stays.1 mem
    obtain ⟨inLayout', away'⟩ := stays.1 listed'
    obtain ⟨d, hit⟩ := pre.blocks v inLayout
    rw [removed.succsOf hit, if_neg away, removed.exits inLayout away, mem_filter,
      pre.succs v inLayout dest inLayout']
    simp [away']
  · intro v mem source
    obtain ⟨inLayout, away⟩ := stays.1 mem
    obtain ⟨d, hit⟩ := pre.blocks v inLayout
    have keeps : source ∈ t.layout f ∧ v ∈ t.succsOf source ↔
        (source ∈ g.layout f ∧ v ∈ g.succsOf source) ∧ source ≠ b := by
      rw [stays]
      constructor
      · rintro ⟨⟨old, nb⟩, edge⟩
        obtain ⟨other, sourceFound⟩ := pre.blocks source old
        rw [removed.succsOf sourceFound, if_neg nb] at edge
        exact ⟨⟨old, edge⟩, nb⟩
      · rintro ⟨⟨old, edge⟩, nb⟩
        obtain ⟨other, sourceFound⟩ := pre.blocks source old
        rw [removed.succsOf sourceFound, if_neg nb]
        exact ⟨⟨old, nb⟩, edge⟩
    rw [removed.predsOf hit, keeps, ← pre.preds v inLayout source]
    split
    · rw [mem_filter]
      simp
    next absent =>
      refine (and_iff_left_of_imp ?_).symm
      rintro edge rfl
      exact absent ((pre.preds v inLayout source).1 edge).2
  · intro v mem
    exact pre.listed v (stays.1 mem).1
  · intro v inHome
    obtain ⟨d, hit⟩ := pre.homeBlocks v inHome
    exact ⟨_, removed.edited.block_of hit⟩
  · intro v inHome dest edge
    obtain ⟨d, hit⟩ := pre.homeBlocks v inHome
    rw [removed.succsOf hit] at edge
    split at edge
    · cases edge
    · exact pre.homeSuccs v inHome dest edge

end

variable {entry : ValueId}

section
variable (removed : g.Without t f b)
include removed

theorem reaches (s0 : entry ∈ g.layout f) (ne : b ≠ entry) (path : t.Reaches entry v) :
    g.Reaches entry v ∧ v ∈ t.layout f := by
  induction path with
  | start => exact ⟨.start, removed.mem_layout_iff.2 ⟨s0, ne.symm⟩⟩
  | @next source dest _ mem ih =>
    obtain ⟨path, isIn⟩ := ih
    obtain ⟨inLayout, away⟩ := removed.mem_layout_iff.1 isIn
    have goes := removed.structured.targets source isIn dest mem
    rw [removed.exits inLayout away] at mem
    exact ⟨path.next (mem_filter.1 mem).1, goes⟩

theorem reached (s0 : entry ∈ g.layout f)
    (unreached : ¬ g.Reaches entry b) {v : ValueId} (path : g.Reaches entry v) : t.Reaches entry v := by
  induction path with
  | start => exact .start
  | @next source dest pre goes ih =>
    refine ih.next ?_
    rw [removed.exits (pre.mem_layout removed.formed s0) fun eq => unreached (eq ▸ pre), mem_filter]
    exact ⟨goes, by simpa using fun eq : dest = b => unreached (eq ▸ pre.next goes)⟩

theorem next?_eq (s0 : entry ∈ g.layout f)
    (unreached : ¬ g.Reaches entry b) {tail : List ValueId} (running : g.Running entry (i :: tail))
    (choice : Bool) : t.next? i choice = g.next? i choice := by
  obtain ⟨v, path, suffix⟩ := running
  have isIn := path.mem_layout removed.formed s0
  have ne : v ≠ b := fun eq => unreached (eq ▸ path)
  have mem : i ∈ g.code v := suffix.subset (mem_cons_self ..)
  rw [removed.edited.consistent.next?, removed.formed.consistent.next?, removed.opcode? i,
    removed.targetsOf_inst isIn ne mem]
  by_cases last : g.isTerminator i
  · have ends := (removed.formed.nil_of_terminator isIn suffix last).2
    have eq : (g.targetsOf i).filter (· ≠ b) = g.targetsOf i := by
      rw [filter_eq_self]
      intro dest isTarget
      have goes := path.next (Structured.exits_of_lastOf ends ▸ isTarget)
      simpa using fun eq : dest = b => unreached (eq ▸ goes)
    rw [eq]
  · cases hit : g.opcode? i with
    | none => rfl
    | some op =>
      rw [isTerminator_of_opcode? hit] at last
      cases op with
      | jmp => exact absurd rfl last
      | br => exact absurd rfl last
      | _ => rfl

theorem sameInst (isIn : v ∈ g.layout f) (ne : v ≠ b)
    (mem : i ∈ g.code v) : g.SameInst t i := by
  refine ⟨removed.opcode? i, removed.edited.ty? i, removed.edited.attr? (fun _ _ => rfl) i, ?_⟩
  rw [dataOperands, removed.operandsOf_inst isIn ne mem, filter_filter, dataOperands]
  refine filter_congr ?_
  intro dest _
  cases dest with
  | none => simp
  | some w =>
    by_cases eq : w = b
    · simp [eq, removed.formed.isBlock removed.member, removed.edited.isBlock]
    · simp [eq, removed.edited.isBlock]

theorem sameRuns (s0 : entry ∈ g.layout f)
    (unreached : ¬ g.Reaches entry b) (ne : b ≠ entry) : g.SameRuns t entry := by
  have follows : g.Follows t id (g.Running entry) (fun _ => False) := by
    refine ⟨fun _ _ _ quiet => quiet.elim, ?_, ?_⟩
    · intro choices tl running _
      cases tl with
      | nil => rfl
      | cons i tail =>
        refine @step_eq_map g t id rfl i tail (removed.opcode? i)
          (removed.next?_eq s0 unreached running) ?_ (fun _ => rfl) (fun _ => ⟨tail, rfl⟩) choices
        intro choice dest goes
        have path := running.next? removed.formed s0 goes
        exact removed.code fun eq => unreached (eq ▸ path)
    · intro choices tl i left next running taken
      exact running.step removed.formed s0 taken
  refine follows.sameRuns (.of_reaches .start) (removed.code ne.symm).symm ?_
  intro choices tl i left next running taken
  obtain ⟨tail, rfl⟩ := head_of_step taken
  obtain ⟨v, path, suffix⟩ := running
  exact removed.sameInst (path.mem_layout removed.formed s0)
    (fun eq => unreached (eq ▸ path)) (suffix.subset (mem_cons_self ..))

end

end Without
end Midend.Graph
