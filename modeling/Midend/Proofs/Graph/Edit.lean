import Midend.Proofs.Graph.Operands

/-! Changes of a graph in which every value stays what it is: the data of blocks and
instructions and the references between values may change, and nothing else does. Such
changes compose, so a pass made of many small changes has one equation for its effect. -/
namespace Midend

def Kind.edit (onBlock : Block → Block) (onInst : Inst → Inst) : Kind → Kind
  | .block data => .block (onBlock data)
  | .inst data => .inst (onInst data)
  | kind => kind

namespace Graph
variable {g : Graph}

structure Edited (g after : Graph) (blocks : ValueId → Block → Block) (insts : ValueId → Inst → Inst)
    (refs : ValueId → List (Option ValueId) → List (Option ValueId)) : Prop where
  consistent : after.Consistent
  size : after.values.size = g.values.size
  kind? : ∀ v, after.kind? v = (g.kind? v).map (Kind.edit (blocks v) (insts v))
  ty? : ∀ v, after.ty? v = g.ty? v
  operandsOf : ∀ v, after.operandsOf v = refs v (g.operandsOf v)

def Referenced (g after : Graph)
    (refs : ValueId → List (Option ValueId) → List (Option ValueId)) : Prop :=
  g.Edited after (fun _ data => data) (fun _ data => data) refs

def Reblocked (g after : Graph) (blocks : ValueId → Block → Block) : Prop :=
  g.Edited after blocks (fun _ data => data) (fun _ old => old)

namespace Edited
variable {g mid t : Graph} {bs otherBlocks : ValueId → Block → Block}
  {insts otherInsts : ValueId → Inst → Inst}
  {refs otherRefs : ValueId → List (Option ValueId) → List (Option ValueId)}
variable {v : ValueId}

theorem refl (ok : g.Consistent) : g.Edited g (fun _ d => d) (fun _ d => d) (fun _ old => old) := by
  refine ⟨ok, rfl, ?_, fun _ => rfl, fun _ => rfl⟩
  intro v
  cases g.kind? v with
  | none => rfl
  | some k => cases k <;> rfl

/-- One edit after another is an edit. -/
theorem trans (first : g.Edited mid bs insts refs)
    (second : mid.Edited t otherBlocks otherInsts otherRefs) :
    g.Edited t (fun v d => otherBlocks v (bs v d))
      (fun v d => otherInsts v (insts v d)) (fun v old => otherRefs v (refs v old)) := by
  refine ⟨second.consistent, second.size.trans first.size, ?_, ?_, ?_⟩
  · intro v
    rw [second.kind? v, first.kind? v]
    cases g.kind? v with
    | none => rfl
    | some k => cases k <;> rfl
  · intro v
    exact (second.ty? v).trans (first.ty? v)
  · intro v
    rw [second.operandsOf v, first.operandsOf v]

theorem congr (edited : g.Edited t bs insts refs)
    (sameBlocks : ∀ v d, g.kind? v = some (.block d) → bs v d = otherBlocks v d)
    (sameInsts : ∀ v d, g.kind? v = some (.inst d) → insts v d = otherInsts v d)
    (sameRefs : ∀ v, refs v (g.operandsOf v) = otherRefs v (g.operandsOf v)) :
    g.Edited t otherBlocks otherInsts otherRefs := by
  refine ⟨edited.consistent, edited.size, ?_, edited.ty?, fun v => (edited.operandsOf v).trans (sameRefs v)⟩
  intro v
  rw [edited.kind? v]
  cases hit : g.kind? v with
  | none => rfl
  | some k =>
    cases k with
    | block d => exact congrArg (some ∘ Kind.block) (sameBlocks v d hit)
    | inst d => exact congrArg (some ∘ Kind.inst) (sameInsts v d hit)
    | _ => rfl

theorem block_of (edited : g.Edited t bs insts refs) {d : Block} (hit : g.kind? v = some (.block d)) :
    t.kind? v = some (.block (bs v d)) := by
  rw [edited.kind? v, hit]
  rfl

theorem inst_of (edited : g.Edited t bs insts refs) {d : Inst} (hit : g.kind? v = some (.inst d)) :
    t.kind? v = some (.inst (insts v d)) := by
  rw [edited.kind? v, hit]
  rfl

end Edited

theorem Rewired.edited {g t : Graph}
    {refs : ValueId → List (Option ValueId) → List (Option ValueId)} (wired : g.Rewired t refs) :
    g.Referenced t refs := by
  refine ⟨wired.consistent, wired.size, ?_, wired.ty?, wired.operandsOf⟩
  intro v
  rw [wired.kind? v]
  cases g.kind? v with
  | none => rfl
  | some k => cases k <;> rfl

theorem Rekinded.edited {g t : Graph} {v : ValueId} {k : Kind} {onBlock : Block → Block}
    {onInst : Inst → Inst} (rekinded : g.Rekinded t v (k.edit onBlock onInst))
    (hit : g.kind? v = some k) :
    g.Edited t (fun w d => if w = v then onBlock d else d)
      (fun w d => if w = v then onInst d else d) (fun _ old => old) := by
  refine ⟨rekinded.consistent, rekinded.size, ?_, rekinded.ty?, rekinded.operandsOf⟩
  intro w
  rw [rekinded.kind? w]
  split
  next eq => simp [eq, hit]
  next ne =>
    cases g.kind? w with
    | none => rfl
    | some other => cases other <;> rfl

theorem Consistent.modifyBlock_edited (valid : g.Consistent) {v : ValueId} {d : Block}
    (hit : g.kind? v = some (.block d)) (f : Block → Block) :
    ∃ t, g.modifyBlock v f = .ok t ∧ g.Reblocked t fun w d => if w = v then f d else d := by
  obtain ⟨t, done, rekinded⟩ := valid.modifyBlock_rekinded hit f
  have edited := @Rekinded.edited g t v (.block d) f id rekinded hit
  exact ⟨t, done, edited.congr (fun _ _ _ => rfl) (fun _ _ _ => by simp) fun _ => rfl⟩

private theorem Consistent.foldlM_edited {g : Graph} (valid : g.Consistent)
    {step : Graph → ValueId → Except Fault Graph} {fits : Kind → Bool} {onBlock : Block → Block}
    {onInst : Inst → Inst} {onRefs : List (Option ValueId) → List (Option ValueId)}
    (one : ∀ {g : Graph} {v : ValueId} {k : Kind}, g.Consistent → g.kind? v = some k → fits k →
      ∃ t, step g v = .ok t ∧ g.Edited t (fun w d => if w = v then onBlock d else d)
          (fun w d => if w = v then onInst d else d)
          (fun w old => if w = v then onRefs old else old))
    (stays : ∀ (f : Block → Block) (h : Inst → Inst) k, fits (k.edit f h) = fits k)
    (twice : (∀ d, onBlock (onBlock d) = onBlock d) ∧
      (∀ d, onInst (onInst d) = onInst d) ∧ ∀ old, onRefs (onRefs old) = onRefs old)
    {items : List ValueId} (fit : ∀ v ∈ items, ∃ k, g.kind? v = some k ∧ fits k) :
    ∃ t, items.foldlM step g = .ok t ∧ g.Edited t (fun w d => if w ∈ items then onBlock d else d)
        (fun w d => if w ∈ items then onInst d else d)
        (fun w old => if w ∈ items then onRefs old else old) := by
  induction items generalizing g with
  | nil =>
    refine ⟨g, rfl, (Edited.refl valid).congr ?_ ?_ ?_⟩
    · simp
    · simp
    · simp
  | cons item tl ih =>
    obtain ⟨k, hit, good⟩ := fit item (List.mem_cons_self ..)
    obtain ⟨mid, stepped, first⟩ := one valid hit good
    have still : ∀ v ∈ tl, ∃ k, mid.kind? v = some k ∧ fits k := by
      intro v mem
      obtain ⟨old, pre, holds⟩ := fit v (List.mem_cons_of_mem _ mem)
      exact ⟨_, by rw [first.kind? v, pre, Option.map_some], by rw [stays]; exact holds⟩
    obtain ⟨t, folded, second⟩ := ih first.consistent still
    have merge : ∀ {α : Type} (f : α → α), (∀ d, f (f d) = f d) → ∀ (v : ValueId) (d : α),
        (if v ∈ tl then f (if v = item then f d else d) else if v = item then f d else d) =
          if v ∈ item :: tl then f d else d := by
      intro α f again v d
      by_cases eq : v = item
      · by_cases later : v ∈ tl
        · rw [if_pos later, if_pos eq, if_pos (List.mem_cons_of_mem _ later), again]
        · rw [if_neg later, if_pos eq, if_pos (eq ▸ List.mem_cons_self ..)]
      · simp [eq]
    exact ⟨t, by rw [List.foldlM_cons, stepped]; exact folded,
      (first.trans second).congr (fun v d _ => merge onBlock twice.1 v d)
        (fun v d _ => merge onInst twice.2.1 v d) (fun v => merge onRefs twice.2.2 v _)⟩

theorem Consistent.foldlM_modifyBlock {g : Graph} (valid : g.Consistent) {f : Block → Block}
    (twice : ∀ d, f (f d) = f d) {items : List ValueId}
    (bs : ∀ v ∈ items, ∃ d, g.kind? v = some (.block d)) :
    ∃ t, items.foldlM (fun g v => g.modifyBlock v f) g = .ok t ∧
      g.Reblocked t fun w d => if w ∈ items then f d else d := by
  obtain ⟨t, folded, edited⟩ := @Consistent.foldlM_edited g valid (fun g v => g.modifyBlock v f)
    Kind.isBlock f id id
    (fun {_ v k} hs hit hb => by
      cases k with
      | block d =>
        obtain ⟨t, done, edited⟩ := hs.modifyBlock_edited hit f
        exact ⟨t, done, edited.congr (fun _ _ _ => rfl) (by simp) (by simp)⟩
      | _ => cases hb)
    (fun f h k => by cases k <;> rfl) ⟨twice, fun _ => rfl, fun _ => rfl⟩ items
    (fun v mem => by
      obtain ⟨d, hit⟩ := bs v mem
      exact ⟨_, hit, rfl⟩)
  exact ⟨t, folded, edited.congr (fun _ _ _ => rfl) (by simp) (by simp)⟩

theorem Consistent.foldlM_modifyInst {g : Graph} (valid : g.Consistent) {f : Inst → Inst}
    (twice : ∀ d, f (f d) = f d) {items : List ValueId}
    (insts : ∀ v ∈ items, ∃ d, g.kind? v = some (.inst d)) :
    ∃ t, items.foldlM (fun g v => g.modifyInst v f) g = .ok t ∧
      g.Edited t (fun _ d => d) (fun w d => if w ∈ items then f d else d) (fun _ old => old) := by
  obtain ⟨t, folded, edited⟩ := @Consistent.foldlM_edited g valid (fun g v => g.modifyInst v f) Kind.isInst id f id
    (fun {g v k} hs hit isInst => by
      cases k with
      | inst d =>
        obtain ⟨t, done, rekinded⟩ := hs.modifyInst_rekinded hit f
        have edited := @Rekinded.edited g t v (.inst d) id f rekinded hit
        exact ⟨t, done, edited.congr (fun _ _ _ => rfl) (fun _ _ _ => rfl) (by simp)⟩
      | _ => cases isInst)
    (fun f h k => by cases k <;> rfl) ⟨fun _ => rfl, twice, fun _ => rfl⟩ items
    (fun v mem => by
      obtain ⟨d, hit⟩ := insts v mem
      exact ⟨_, hit, rfl⟩)
  exact ⟨t, folded, edited.congr (by simp) (fun _ _ _ => rfl) (by simp)⟩

theorem Consistent.foldlM_dropOperands (valid : g.Consistent) {items : List ValueId}
    (into : ∀ v ∈ items, v.index < g.values.size) :
    ∃ t, items.foldlM Graph.dropOperands g = .ok t ∧
      g.Referenced t fun w old => if w ∈ items then [] else old := by
  obtain ⟨t, folded, edited⟩ := @Consistent.foldlM_edited g valid Graph.dropOperands
    (fun _ => true) id id (fun _ => [])
    (fun hs hit _ => by
      obtain ⟨t, done, wired⟩ := hs.dropOperands_rewired (lt_of_kind? hit)
      exact ⟨t, done, wired.edited.congr (by simp) (by simp) (fun _ => rfl)⟩)
    (fun _ _ _ => rfl) ⟨fun _ => rfl, fun _ => rfl, fun _ => rfl⟩ items
    (fun v mem => by
      obtain ⟨k, hit⟩ := Option.isSome_iff_exists.1 (kind?_isSome.2 (into v mem))
      exact ⟨k, hit, rfl⟩)
  exact ⟨t, folded, edited.congr (by simp) (by simp) fun _ => rfl⟩

end Graph
end Midend
