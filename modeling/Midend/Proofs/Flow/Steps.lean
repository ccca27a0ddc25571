import Midend.Pass.Merge
import Midend.Proofs.Flow.Edges

/-! What the two steps of block merging do to a graph: the removal of a block and the
appending of a block to its only predecessor. Each is one edit of the graph. -/
namespace Midend
open List

private theorem eraseDups_eraseDups (items : List ValueId) : items.eraseDups.eraseDups = items.eraseDups := by
  induction h : items.length using Nat.strongRecOn generalizing items with
  | ind length ih =>
    cases items with
    | nil => rfl
    | cons item tl =>
      have kept : ((tl.filter fun other => !other == item).eraseDups.filter fun other => !other == item) =
          (tl.filter fun other => !other == item).eraseDups := by
        rw [filter_eq_self]
        intro other mem
        exact (mem_filter.1 (mem_eraseDups.1 mem)).2
      have shorter := length_filter_le (fun other => !other == item) tl
      rw [eraseDups_cons, eraseDups_cons, kept, ih _ (by simp at h; omega) _ rfl]

namespace Graph
variable {b f last pred : ValueId} {refs : List (Option ValueId)} {d predData : Block}

def vacated (block : ValueId) (refs : List (Option ValueId)) : List (Option ValueId) :=
  refs.map fun target => if target = some block then none else target

private theorem vacated_of_not_mem (absent : some b ∉ refs) : vacated b refs = refs := by
  unfold vacated
  refine (map_congr_left ?_).trans (map_id refs)
  intro dest mem
  exact if_neg fun eq : dest = some b => absent (eq ▸ mem)

theorem mem_vacated {v : ValueId} : some v ∈ vacated b refs ↔ some v ∈ refs ∧ v ≠ b := by
  unfold vacated
  rw [mem_map]
  constructor
  · rintro ⟨dest, mem, equal⟩
    split at equal
    · cases equal
    next ne =>
      subst equal
      exact ⟨mem, fun eq => ne (congrArg some eq)⟩
  · rintro ⟨mem, ne⟩
    exact ⟨some v, mem, if_neg fun eq => ne (Option.some.inj eq)⟩

theorem filterMap_vacated (b : ValueId) (refs : List (Option ValueId)) :
    (vacated b refs).filterMap id = (refs.filterMap id).filter (· ≠ b) := by
  induction refs with
  | nil => rfl
  | cons dest tl ih =>
    unfold vacated at ih ⊢
    cases dest with
    | none => simpa using ih
    | some v =>
      by_cases eq : v = b
      · simpa [eq] using ih
      · simpa [eq] using ih

private theorem set_findIdx_eq_vacated {i : Nat} (nodup : (refs.filterMap id).Nodup)
    (hit : refs.findIdx? (· == some b) = some i) : refs.set i none = vacated b refs := by
  induction refs generalizing i with
  | nil => cases hit
  | cons dest tl ih =>
    rw [findIdx?_cons] at hit
    by_cases eq : dest = some b
    · subst eq
      simp only [beq_self_eq_true, if_true] at hit
      cases hit
      have fresh : some b ∉ tl ∧ (tl.filterMap fun dest => dest).Nodup := by
        simpa using nodup
      rw [set_cons_zero]
      unfold vacated
      rw [map_cons, if_pos rfl]
      exact congrArg _ (vacated_of_not_mem fresh.1).symm
    · rw [if_neg (by simpa using eq)] at hit
      obtain ⟨pre, located, rfl⟩ := Option.map_eq_some_iff.1 hit
      have tail : (tl.filterMap id).Nodup := by
        cases dest with
        | none => simpa using nodup
        | some v => exact (nodup_cons.1 (by simpa using nodup)).2
      rw [set_cons_succ, ih tail located]
      simp [vacated, eq]

theorem Consistent.blockSlot {g : Graph} (valid : g.Consistent) (into : f.index < g.values.size)
    (b : ValueId) : g.blockSlot f b = .ok ((g.operandsOf f).findIdx? (· == some b)) := by
  unfold Graph.blockSlot
  rw [valid.operands into]
  rfl

theorem Consistent.unlist {g : Graph} (valid : g.Consistent) (into : f.index < g.values.size)
    (nodup : (g.layout f).Nodup) (b : ValueId) :
    ∃ t, g.unlist f b = .ok t ∧
      g.Referenced t fun v old => if v = f then vacated b old else old := by
  unfold Graph.unlist
  simp only [valid.blockSlot into, bind, Except.bind]
  cases hit : (g.operandsOf f).findIdx? (· == some b) with
  | none =>
    refine ⟨g, rfl, (Edited.refl valid).congr (fun _ _ _ => rfl) (fun _ _ _ => rfl) ?_⟩
    intro v
    split
    next eq =>
      subst eq
      rw [vacated_of_not_mem]
      intro mem
      have clear := findIdx?_eq_none_iff.1 hit (some b) mem
      simp at clear
    next => rfl
  | some i =>
    obtain ⟨lt, _⟩ := findIdx?_eq_some_iff_getElem.1 hit
    obtain ⟨t, done, wired⟩ := valid.setOperand_rewired f i none lt (by simp)
    refine ⟨t, done, wired.edited.congr (fun _ _ _ => rfl) (fun _ _ _ => rfl) ?_⟩
    intro v
    split
    next eq =>
      subst eq
      exact set_findIdx_eq_vacated nodup hit
    next => rfl

def withoutBlock (block : ValueId) (succs : List ValueId) (v : ValueId) (data : Block) : Block :=
  { data with
    insts := if v = block then [] else data.insts
    succs := if v = block then [] else data.succs
    preds := if v ∈ succs then data.preds.filter (· ≠ block) else data.preds }

def withAppended (pred block : ValueId) (insts succs : List ValueId) (v : ValueId) (data : Block) :
    Block :=
  { data with
    insts := if v = pred then data.insts.dropLast ++ insts else if v = block then [] else data.insts
    succs := if v = pred then succs else if v = block then [] else data.succs
    preds :=
      if v = block then []
      else if v ∈ succs then (data.preds.map fun p => if p = block then pred else p).eraseDups
      else data.preds }

variable {g : Graph}

section
variable (valid : g.Consistent)
include valid

theorem Consistent.dropEdges (hit : g.kind? b = some (.block d))
    (succs : ∀ v ∈ d.succs, ∃ other, g.kind? v = some (.block other)) :
    ∃ t, g.dropEdges b = .ok t ∧ g.Reblocked t fun v data => { data with
        succs := if v = b then [] else data.succs
        preds := if v ∈ d.succs then data.preds.filter (· ≠ b) else data.preds } := by
  obtain ⟨mid, cleared, first⟩ := valid.modifyBlock_edited hit fun data => { data with succs := [] }
  have bs : ∀ v ∈ d.succs, ∃ other, mid.kind? v = some (.block other) := by
    intro v mem
    obtain ⟨other, pre⟩ := succs v mem
    exact ⟨_, first.block_of pre⟩
  obtain ⟨t, folded, second⟩ := @Consistent.foldlM_modifyBlock mid first.consistent
    (fun data => { data with preds := data.preds.filter (· ≠ b) }) (fun data => by simp) d.succs bs
  refine ⟨t, ?_, (Edited.trans first second).congr ?_ (fun _ _ _ => rfl) fun _ => rfl⟩
  · unfold Graph.dropEdges
    rw [hit]
    exact bind_eq_ok.2 ⟨mid, cleared, folded⟩
  · intro v data _
    split <;> split <;> rfl

theorem Consistent.dropInsts (hit : g.kind? b = some (.block d))
    (into : ∀ v ∈ d.insts, v.index < g.values.size) :
    ∃ t, g.dropInsts b = .ok t ∧
      g.Edited t (fun v data => { data with insts := if v = b then [] else data.insts })
        (fun _ i => i) (fun v old => if v ∈ d.insts then [] else old) := by
  obtain ⟨mid, cleared, first⟩ := valid.modifyBlock_edited hit fun data => { data with insts := [] }
  obtain ⟨t, folded, second⟩ := first.consistent.foldlM_dropOperands
    fun v mem => (first.size ▸ into v mem : v.index < mid.values.size)
  refine ⟨t, ?_, (Edited.trans first second).congr ?_ (fun _ _ _ => rfl) fun _ => rfl⟩
  · unfold Graph.dropInsts
    rw [block_eq_ok.2 hit]
    exact bind_eq_ok.2 ⟨d, rfl, bind_eq_ok.2 ⟨mid, cleared, folded⟩⟩
  · intro v data _
    split <;> rfl

/-- What the graph is after a block was removed. -/
theorem Consistent.removeBlock (into : f.index < g.values.size)
    (nodup : (g.layout f).Nodup) (hit : g.kind? b = some (.block d))
    (succs : ∀ v ∈ d.succs, ∃ other, g.kind? v = some (.block other))
    (insts : ∀ v ∈ d.insts, v.index < g.values.size) :
    ∃ t, g.removeBlock f b = .ok t ∧ g.Edited t (withoutBlock b d.succs) (fun _ i => i)
        (fun v old =>
          (if v = b ∨ v ∈ d.insts then [] else if v = f then vacated b old else old).filter
            (· ≠ some b)) := by
  obtain ⟨g1, edges, e1⟩ := valid.dropEdges hit succs
  have layout : g1.layout f = g.layout f := by rw [layout, e1.operandsOf f, layout]
  obtain ⟨g2, isIn, e2⟩ := e1.consistent.unlist (by rw [e1.size]; exact into) (by rw [layout]; exact nodup) b
  obtain ⟨g3, dropped, e3⟩ := e2.consistent.dropInsts (e2.block_of (e1.block_of hit)) (by
    intro v mem
    rw [e2.size, e1.size]
    exact insts v mem)
  obtain ⟨g4, bare, e4⟩ := e3.consistent.dropOperands_rewired
    (lt_of_kind? (e3.block_of (e2.block_of (e1.block_of hit))))
  have still := e4.edited.block_of (e3.block_of (e2.block_of (e1.block_of hit)))
  obtain ⟨t, gone, e5⟩ := e4.consistent.removeFromUsers_rewired (lt_of_kind? still)
  refine ⟨t, ?_, ((((Edited.trans e1 e2).trans e3).trans e4.edited).trans e5.edited).congr
    (fun _ _ _ => rfl) (fun _ _ _ => rfl) ?_⟩
  · unfold Graph.removeBlock
    rw [edges]
    exact bind_eq_ok.2 ⟨g1, rfl, bind_eq_ok.2 ⟨g2, isIn, bind_eq_ok.2 ⟨g3, dropped,
      bind_eq_ok.2 ⟨g4, bare, gone⟩⟩⟩⟩
  · intro v
    by_cases hb : v = b
    · simp [hb]
    · by_cases mem : v ∈ d.insts
      · simp [hb, mem]
      · simp [hb, mem]

theorem Consistent.dropTerminator (hit : g.kind? b = some (.block d))
    (ends : g.lastOf b = some last) (into : last.index < g.values.size) :
    ∃ t, g.dropTerminator b = .ok t ∧
      g.Edited t (fun v data => { data with insts := if v = b then data.insts.dropLast else data.insts })
        (fun _ i => i) (fun v old => if v = last then [] else old) := by
  obtain ⟨mid, dropped, first⟩ := valid.dropOperands_rewired into
  obtain ⟨t, cut, second⟩ := first.consistent.modifyBlock_edited (first.edited.block_of hit)
    fun data => { data with insts := data.insts.dropLast }
  refine ⟨t, ?_, (Edited.trans first.edited second).congr ?_ (fun _ _ _ => rfl) fun _ => rfl⟩
  · unfold Graph.dropTerminator
    rw [Consistent.terminator? hit, ends]
    exact bind_eq_ok.2 ⟨some last, rfl, bind_eq_ok.2 ⟨mid, dropped, cut⟩⟩
  · intro v data _
    split <;> rfl

theorem Consistent.moveInsts (predFound : g.kind? pred = some (.block predData))
    (hit : g.kind? b = some (.block d)) (ne : pred ≠ b)
    (insts : ∀ v ∈ d.insts, ∃ inst, g.kind? v = some (.inst inst)) :
    ∃ t, g.moveInsts pred b = .ok t ∧ g.Edited t (fun v data => { data with
          insts := if v = pred then data.insts ++ d.insts else if v = b then [] else data.insts })
        (fun v i => if v ∈ d.insts then { i with parent := pred } else i) (fun _ old => old) := by
  obtain ⟨g1, cleared, e1⟩ := valid.modifyBlock_edited hit fun data => { data with insts := [] }
  obtain ⟨g2, moved, e2⟩ := @Consistent.foldlM_modifyInst g1 e1.consistent
    (fun i => { i with parent := pred }) (fun _ => rfl) d.insts (by
      intro v mem
      obtain ⟨inst, pre⟩ := insts v mem
      exact ⟨_, e1.inst_of pre⟩)
  obtain ⟨t, appended, e3⟩ := e2.consistent.modifyBlock_edited
    (e2.block_of (e1.block_of predFound)) fun data => { data with insts := data.insts ++ d.insts }
  refine ⟨t, ?_, ((Edited.trans e1 e2).trans e3).congr ?_ (fun _ _ _ => rfl) fun _ => rfl⟩
  · unfold Graph.moveInsts
    rw [block_eq_ok.2 hit]
    exact bind_eq_ok.2 ⟨d, rfl, bind_eq_ok.2 ⟨g1, cleared, bind_eq_ok.2 ⟨g2, moved, appended⟩⟩⟩
  · intro v data _
    by_cases isPred : v = pred
    · have nb : v ≠ b := isPred ▸ ne
      simp only [if_pos isPred, if_neg nb]
    · simp only [if_neg isPred]
      split <;> rfl

theorem Consistent.moveEdges (predFound : g.kind? pred = some (.block predData))
    (hit : g.kind? b = some (.block d)) (ne : pred ≠ b)
    (succs : ∀ v ∈ d.succs, ∃ other, g.kind? v = some (.block other)) :
    ∃ t, g.moveEdges pred b = .ok t ∧ g.Reblocked t fun v data => { data with
        succs := if v = pred then d.succs else if v = b then [] else data.succs
        preds :=
          if v = b then []
          else if v ∈ d.succs then (data.preds.map fun p => if p = b then pred else p).eraseDups
          else data.preds } := by
  obtain ⟨g1, cleared, e1⟩ := valid.modifyBlock_edited hit fun data => { data with succs := [] }
  have renamed : ∀ preds : List ValueId, (preds.map fun p => if p = b then pred else p).eraseDups.map
      (fun p => if p = b then pred else p) = (preds.map fun p => if p = b then pred else p).eraseDups := by
    intro preds
    refine (map_congr_left ?_).trans (map_id _)
    intro p mem
    obtain ⟨q, _, rfl⟩ := mem_map.1 (mem_eraseDups.1 mem)
    by_cases eq : q = b
    · simp [eq, ne]
    · simp [eq]
  obtain ⟨g2, redirected, e2⟩ := @Consistent.foldlM_modifyBlock g1 e1.consistent
    (fun data => { data with preds := (data.preds.map fun p => if p = b then pred else p).eraseDups })
    (fun data => by simp only [renamed, eraseDups_eraseDups]) d.succs (by
      intro v mem
      obtain ⟨other, pre⟩ := succs v mem
      exact ⟨_, e1.block_of pre⟩)
  obtain ⟨g3, given, e3⟩ := e2.consistent.modifyBlock_edited (e2.block_of (e1.block_of predFound))
    fun data => { data with succs := d.succs }
  obtain ⟨t, emptied, e4⟩ := e3.consistent.modifyBlock_edited
    (e3.block_of (e2.block_of (e1.block_of hit))) fun data => { data with preds := [] }
  refine ⟨t, ?_, (((Edited.trans e1 e2).trans e3).trans e4).congr ?_ (fun _ _ _ => rfl) fun _ => rfl⟩
  · unfold Graph.moveEdges
    rw [block_eq_ok.2 hit]
    exact bind_eq_ok.2 ⟨d, rfl, bind_eq_ok.2 ⟨g1, cleared, bind_eq_ok.2 ⟨g2, redirected,
      bind_eq_ok.2 ⟨g3, given, emptied⟩⟩⟩⟩
  · intro v data _
    by_cases isPred : v = pred
    · have nb : v ≠ b := isPred ▸ ne
      simp only [if_pos isPred, if_neg nb]
      split <;> rfl
    · simp only [if_neg isPred]
      split
      · split <;> rfl
      · split <;> rfl

/-- A block is appended to another one, in place of its last instruction, and references to
it become references to the other one. -/
theorem Consistent.mergeInto (function : ∃ funcData, g.kind? f = some (.function funcData))
    (nodup : (g.layout f).Nodup) (predFound : g.kind? pred = some (.block predData))
    (hit : g.kind? b = some (.block d)) (ne : pred ≠ b) (ends : g.lastOf pred = some last)
    (lastFound : ∃ inst, g.kind? last = some (.inst inst))
    (insts : ∀ v ∈ d.insts, ∃ inst, g.kind? v = some (.inst inst))
    (succs : ∀ v ∈ d.succs, ∃ other, g.kind? v = some (.block other)) :
    ∃ t, g.mergeInto f pred b = .ok t ∧ g.Edited t (withAppended pred b d.insts d.succs)
        (fun v i => if v ∈ d.insts then { i with parent := pred } else i)
        (fun v old =>
          if v = b ∨ v = last then []
          else (if v = f then vacated b old else old).map fun dest =>
            if dest = some b then some pred else dest) := by
  obtain ⟨funcData, isFn⟩ := function
  obtain ⟨lastInst, isInst⟩ := lastFound
  obtain ⟨g1, cut, e1⟩ := valid.dropTerminator predFound ends (lt_of_kind? isInst)
  have notFunc : f ≠ last := by
    rintro rfl
    cases isFn.symm.trans isInst
  obtain ⟨g2, moved, e2⟩ := e1.consistent.moveInsts (e1.block_of predFound) (e1.block_of hit) ne (by
    intro v mem
    simp only [if_neg (Ne.symm ne)] at mem
    obtain ⟨inst, pre⟩ := insts v mem
    exact ⟨_, e1.inst_of pre⟩)
  obtain ⟨g3, relinked, e3⟩ := e2.consistent.moveEdges (e2.block_of (e1.block_of predFound))
    (e2.block_of (e1.block_of hit)) ne (by
      intro v mem
      obtain ⟨other, pre⟩ := succs v mem
      exact ⟨_, e2.block_of (e1.block_of pre)⟩)
  have layout : g3.layout f = g.layout f := by
    rw [layout, e3.operandsOf f, e2.operandsOf f, e1.operandsOf f, if_neg notFunc, layout]
  obtain ⟨g4, isIn, e4⟩ := e3.consistent.unlist
    (by rw [e3.size, e2.size, e1.size]; exact lt_of_kind? isFn) (by rw [layout]; exact nodup) b
  have blockNow := e4.block_of (e3.block_of (e2.block_of (e1.block_of hit)))
  have predNow := e4.block_of (e3.block_of (e2.block_of (e1.block_of predFound)))
  obtain ⟨g5, bare, e5⟩ := e4.consistent.dropOperands_rewired (lt_of_kind? blockNow)
  obtain ⟨t, replaced, e6⟩ := e5.consistent.replaceBy_rewired
    (lt_of_kind? (e5.edited.block_of blockNow)) (lt_of_kind? (e5.edited.block_of predNow))
  refine ⟨t, ?_, (((((Edited.trans e1 e2).trans e3).trans e4).trans e5.edited).trans e6.edited).congr ?_ ?_ ?_⟩
  · unfold Graph.mergeInto
    rw [cut]
    exact bind_eq_ok.2 ⟨g1, rfl, bind_eq_ok.2 ⟨g2, moved, bind_eq_ok.2 ⟨g3, relinked,
      bind_eq_ok.2 ⟨g4, isIn, bind_eq_ok.2 ⟨g5, bare, replaced⟩⟩⟩⟩⟩
  · intro v data _
    unfold withAppended
    by_cases isPred : v = pred
    · simp only [if_pos isPred, if_neg (Ne.symm ne)]
    · simp only [if_neg isPred, if_neg (Ne.symm ne)]
  · intro v i _
    simp only [if_neg (Ne.symm ne)]
  · intro v
    by_cases hb : v = b
    · simp [hb]
    · by_cases isLast : v = last
      · have away : last ≠ f := fun eq => notFunc eq.symm
        simp [isLast, away]
      · simp [hb, isLast]

end

end Graph
end Midend
