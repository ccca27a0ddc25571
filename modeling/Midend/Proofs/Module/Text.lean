import Midend.Module.Text
import Midend.Proofs.Flow.Computed

/-! The text of a module tells nothing of derived edges: blocks that keep their names and their
instructions have the same text. Only a module without a text may fail in another way, since a
failure shows the data of the value at which it arose. -/
namespace Midend
open Graph

def Agree {α : Type} (left right : Except Fault α) : Prop := ∀ value, left = .ok value ↔ right = .ok value

namespace Agree
variable {α β : Type} {left right : Except Fault α}

theorem refl (x : Except Fault α) : Agree x x := fun _ => Iff.rfl

theorem bind {next other : α → Except Fault β} (first : Agree left right)
    (second : ∀ value, Agree (next value) (other value)) : Agree (left >>= next) (right >>= other) := by
  intro res
  rw [bind_eq_ok, bind_eq_ok]
  exact exists_congr fun value => and_congr (first value) (second value res)

theorem map (agree : Agree left right) (f : α → β) : Agree (f <$> left) (f <$> right) := by
  intro res
  rw [map_eq_ok, map_eq_ok]
  exact exists_congr fun value => and_congr_left fun _ => agree value

theorem mapM {items : List β} {each other : β → Except Fault α} (agree : ∀ item, Agree (each item) (other item)) :
    Agree (items.mapM each) (items.mapM other) := by
  induction items with
  | nil => exact .refl _
  | cons item tl ih =>
    rw [List.mapM_cons, List.mapM_cons]
    exact (agree item).bind fun _ => ih.bind fun _ => .refl _

end Agree

namespace Graph
variable {f : ValueId → Block → Block}

private theorem function_reblock (g : Graph) (f : ValueId → Block → Block) (v : ValueId) :
    Agree ((g.reblock f).function v) (g.function v) := by
  intro d
  rw [function_eq_ok, function_eq_ok, kind?_reblock]
  cases g.kind? v with
  | none => rfl
  | some k => cases k <;> simp [Kind.edit]

private theorem inst_reblock (g : Graph) (f : ValueId → Block → Block) (v : ValueId) :
    Agree ((g.reblock f).inst v) (g.inst v) := by
  unfold inst
  rw [kind_reblock]
  cases g.kind v with
  | error fault => exact .refl _
  | ok k =>
    cases k with
    | block d => exact fun _ => ⟨nofun, nofun⟩
    | _ => exact .refl _

private theorem operandText_reblock (g : Graph) (f : ValueId → Block → Block) : (g.reblock f).operandText = g.operandText := by
  funext names v
  cases v with
  | none => rfl
  | some v =>
    unfold operandText
    dsimp only
    rw [kind_reblock]
    cases g.kind v with
    | error fault => rfl
    | ok k => cases k <;> rfl

private theorem typedText_reblock (g : Graph) (f : ValueId → Block → Block) : (g.reblock f).typedText = g.typedText := by
  funext names v
  unfold typedText
  rw [ty_reblock, operandText_reblock]

private theorem globalText_reblock (g : Graph) (f : ValueId → Block → Block) : (g.reblock f).globalText = g.globalText := by
  funext v
  unfold globalText
  rw [kind_reblock, ty_reblock, operand_reblock, operandText_reblock]
  cases g.kind v with
  | error fault => rfl
  | ok k => cases k <;> rfl

private theorem instText_reblock (g : Graph) (f : ValueId → Block → Block) (names : Names) (v : ValueId) :
    Agree ((g.reblock f).instText names v) (g.instText names v) := by
  have body : ∀ ty, Agree ((g.reblock f).bodyText names v ty) (g.bodyText names v ty) := by
    intro ty
    unfold bodyText
    rw [operands_reblock, typedText_reblock, operandText_reblock]
    exact (g.inst_reblock f v).bind fun _ => .refl _
  unfold instText
  rw [ty_reblock, operandText_reblock]
  exact (Agree.refl _).bind fun ty => (body ty).bind fun _ => .refl _

private theorem blockText_reblock (insts : ∀ v d, (f v d).insts = d.insts) (g : Graph) (old : Names) (v : ValueId) :
    Agree ((g.reblock f).blockText old v) (g.blockText old v) := by
  unfold blockText
  rw [liveOperands_reblock, operandText_reblock, block_reblock]
  refine (Agree.refl _).bind fun live => (Agree.refl _).bind fun preds => ?_
  cases g.block v with
  | error fault => exact .refl _
  | ok d =>
    show Agree (List.mapM _ (f v d).insts >>= _) (List.mapM _ d.insts >>= _)
    rw [insts]
    apply Agree.bind
    · exact .mapM fun i => (g.instText_reblock f old i).bind fun _ => .refl _
    · exact fun _ => .refl _

end Graph

section Keeps
variable {f : ValueId → Block → Block} (names : ∀ v d, (f v d).name = d.name)
  (insts : ∀ v d, (f v d).insts = d.insts)
include names

private theorem Names.hint_reblock (g : Graph) : hint (g.reblock f) = hint g := by
  funext v
  unfold hint
  rw [kind_reblock]
  cases g.kind v with
  | error fault => rfl
  | ok k =>
    cases k with
    | block d => exact congrArg Except.ok (names v d)
    | _ => rfl

include insts

private theorem Names.ofFunction_reblock (g : Graph) (fn : ValueId) :
    Agree (ofFunction (g.reblock f) fn) (ofFunction g fn) := by
  have hints : hint (g.reblock f) = hint g := hint_reblock names g
  have bs : assignBlock (g.reblock f) = assignBlock g := by
    funext old v
    unfold assignBlock assignInst assign
    rw [hints, ty_reblock, block_reblock]
    cases g.block v with
    | error fault => rfl
    | ok d =>
      show (_ >>= fun old => List.foldlM _ old (f v d).insts) = _
      rw [insts]
      rfl
  unfold ofFunction Graph.functionBlocks assignHinted assign
  rw [hints, bs, liveOperands_reblock]
  exact (g.function_reblock f fn).bind fun _ => .refl _

private theorem Graph.functionText_reblock (g : Graph) (fn : ValueId) :
    Agree ((g.reblock f).functionText fn) (g.functionText fn) := by
  unfold functionText functionBlocks returnType
  rw [typedText_reblock, ty_reblock, liveOperands_reblock]
  refine (Names.ofFunction_reblock names insts g fn).bind fun old => ?_
  refine (g.function_reblock f fn).bind fun d => ?_
  refine (Agree.refl _).bind fun args => (Agree.refl _).bind fun ty => (Agree.refl _).bind fun bs => ?_
  exact (Agree.mapM (blockText_reblock insts g old)).bind fun _ => .refl _

theorem Module.text_reblock (m : Module) : Agree (text { m with graph := m.graph.reblock f }) m.text := by
  unfold text
  rw [globalText_reblock]
  refine (Agree.refl _).bind fun gs => ?_
  apply Agree.bind
  · exact .mapM fun fn => (functionText_reblock names insts m.graph fn).map _
  · exact fun _ => .refl _

end Keeps
end Midend
