import Midend.Proofs.Meaning.Preserved

/-! The types of lowered values. They are those that the source is annotated with, but for the values of
assignments: what is assigned keeps its own type if the variable is as wide. -/
namespace Midend
open List

namespace Expr

mutual
def parts : Expr → List Expr
  | .unary op operand note => .unary op operand note :: operand.parts
  | .binary op left right note => .binary op left right note :: (left.parts ++ right.parts)
  | .call function arguments note => .call function arguments note :: partsAll arguments
  | e => [e]

def partsAll : List Expr → List Expr
  | [] => []
  | e :: rest => e.parts ++ partsAll rest
end

private theorem self_mem_parts (e : Expr) : e ∈ e.parts := by
  cases e <;> simp [parts]

mutual
theorem parts_trans : (e : Expr) → ∀ {part inner}, part ∈ e.parts → inner ∈ part.parts → inner ∈ e.parts
  | .int _ _, _, _, member, within | .char _ _, _, _, member, within | .string _ _, _, _, member, within
  | .ident _ _, _, _, member, within => mem_singleton.1 member ▸ within
  | .unary _ arg _, _, _, member, within => by
    rcases mem_cons.1 member with rfl | member
    · exact within
    · exact mem_cons_of_mem _ (parts_trans arg member within)
  | .binary _ left right _, _, _, member, within => by
    rcases mem_cons.1 member with rfl | member
    · exact within
    · refine mem_cons_of_mem _ (mem_append.2 ?_)
      exact (mem_append.1 member).imp (parts_trans left · within) (parts_trans right · within)
  | .call _ arguments _, _, _, member, within => by
    rcases mem_cons.1 member with rfl | member
    · exact within
    · exact mem_cons_of_mem _ (partsAll_trans arguments member within)

theorem partsAll_trans : (es : List Expr) → ∀ {part inner}, part ∈ partsAll es → inner ∈ part.parts → inner ∈ partsAll es
  | e :: tl, _, _, mem, within =>
    mem_append.2 ((mem_append.1 mem).imp (parts_trans e · within) (partsAll_trans tl · within))
end

end Expr

def wholesDecls (scope : Scope) : List Decl → List (Scope × Expr)
  | [] => []
  | d :: rest => d.initializer.toList.map (scope, ·) ++ wholesDecls (scope.declare d.name d.ty) rest

namespace Stmt

mutual
def wholes (scope : Scope) : Stmt → List (Scope × Expr)
  | .expr e _ => [(scope, e)]
  | .compound body _ => wholesAll scope.push body
  | .declare decls _ => wholesDecls scope decls
  | .ifElse condition thenStmt none _ => (scope, condition) :: wholes scope thenStmt
  | .ifElse condition thenStmt (some elseStmt) _ =>
    (scope, condition) :: (wholes scope thenStmt ++ wholes (thenStmt.after scope) elseStmt)
  | .whileDo condition body _ => (scope, condition) :: wholes scope body
  | .ret value _ => value.toList.map (scope, ·)
  | .breakLoop _ | .continueLoop _ | .empty _ => []
termination_by structural s => s

def wholesAll (scope : Scope) : List Stmt → List (Scope × Expr)
  | [] => []
  | s :: rest => wholes scope s ++ wholesAll (s.after scope) rest
termination_by structural ss => ss
end

def wholesBody (scope : Scope) : Stmt → List (Scope × Expr)
  | .compound body _ => wholesAll scope body
  | body => wholes scope body

end Stmt

def FuncDef.parts (f : FuncDef) (names : Bindings Variable) : List (Scope × Expr) :=
  (f.body.wholesBody (f.scope names)).flatMap fun whole => whole.2.parts.map (whole.1, ·)

private theorem FuncDef.parts_trans (f : FuncDef) {sc : Scope} {ns : Bindings Variable} {part inner : Expr}
    (member : (sc, part) ∈ f.parts ns) (within : inner ∈ part.parts) : (sc, inner) ∈ f.parts ns := by
  obtain ⟨whole, isWhole, member⟩ := mem_flatMap.1 member
  obtain ⟨e, into, same⟩ := mem_map.1 member
  cases same
  exact mem_flatMap.2 ⟨whole, isWhole, mem_map.2 ⟨inner, whole.2.parts_trans into within, rfl⟩⟩

def Ty.widened (source target : Ty) : Ty := if (Builder.castOp source target).isSome then target else source

def Opcode.sign? : Opcode → Option Bool
  | .sdiv | .srem | .ashr => some true
  | .udiv | .urem | .lshr => some false
  | _ => none

def Predicate.sign? : Predicate → Option Bool
  | .slt | .sle | .sgt | .sge => some true
  | .ult | .ule | .ugt | .uge => some false
  | .eq | .ne => none

def ArithOp.sign? (op : ArithOp) (shifted operands : Ty) : Option Bool :=
  match op with
  | .div | .mod => some operands.isSigned
  | .rightShift => some shifted.isSigned
  | _ => none

def CompareOp.sign? (op : CompareOp) (operands : Ty) : Option Bool :=
  match op with
  | .equal | .notEqual => none
  | _ => some operands.isSigned

namespace Expr

def combinedTy (base : Option ArithOp) (target value : Ty) : Ty :=
  if base.isNone then value else target.common value

def made : Expr → Ty
  | .unary op operand _ => unaryTy op operand.made
  | .binary (.assign base) target value _ => (combinedTy base target.made value.made).widened target.made
  | .binary op left right _ => binaryTy op left.made right.made
  | e => e.ty

/-- What a front end promises about the annotation of an expression over integers, if the annotations of its parts
are right. -/
def promised (functions : Bindings Ty) (scope : Scope) : Expr → Bool
  | .int _ note | .char _ note => note.ty.isInteger
  | .string _ _ => false
  | .ident name note =>
    (scope.lookup name).any fun found => found.ty.isInteger && decide (note.ty.Alike found.ty)
  | .unary op operand note => decide (note.ty.Alike (unaryTy op operand.ty))
  | .binary op left right note => decide (note.ty.Alike (binaryTy op left.ty right.ty))
  | .call function _ note =>
    (functions.lookup function).any fun ty => decide (note.ty.Alike (ty.returnType?.getD .void))

/-- An assignment brings what is assigned to the type of the variable, or it has this type already. -/
def keeps : Expr → Bool
  | .binary (.assign base) target value _ =>
    decide ((combinedTy base target.ty value.ty).widened target.ty |>.Alike target.ty)
  | _ => true

end Expr

namespace Ty
variable {source source' dest target' : Ty}

private theorem Alike.widened (sources : source.Alike source') (dests : dest.Alike target') :
    (source.widened dest).Alike (source'.widened target') := by
  have eq : (Builder.castOp source dest).isSome = (Builder.castOp source' target').isSome := by
    simp only [Builder.castOp, sources.bitWidth, dests.bitWidth]
    split <;> repeat' split
    all_goals rfl
  unfold Ty.widened
  rw [eq]
  split
  · exact dests
  · exact sources

theorem Alike.isSigned (alike : source.Alike dest) : source.isSigned = dest.isSigned := by
  rw [← isSigned_unqualified, alike, isSigned_unqualified]

private theorem castOp_eq (isSource : source.isInteger) (isTarget : dest.isInteger) : Builder.castOp source dest =
    if source.width = dest.width then none
    else some (if dest.width < source.width then .trunc else if source.isSigned then .sext else .zext) := by
  simp only [Builder.castOp, bitWidth_of_isInteger isSource, bitWidth_of_isInteger isTarget]
  rcases Nat.lt_trichotomy source.width dest.width with less | same | more
  · rw [if_pos less, if_neg (Nat.ne_of_lt less), if_neg (Nat.lt_asymm less)]
  · simp [same]
  · rw [if_neg (Nat.lt_asymm more), if_pos more, if_neg (Nat.ne_of_gt more), if_pos more]

/-- The wider of two integers keeps its type, and the other one gets it. Of two that are as wide both keep theirs. -/
private theorem widened_common (isLeft : source.isInteger) (isRight : dest.isInteger) :
    (source.widened (source.common dest)).Alike (source.common dest) ∧
      (dest.widened (source.common dest)).Alike
        (if source.width = dest.width then dest else source.common dest) := by
  have integer := isInteger_common isLeft isRight
  unfold Ty.widened
  rw [castOp_eq isLeft integer, castOp_eq isRight integer]
  rcases common_cases source dest with ⟨alike, wide⟩ | ⟨alike, wider⟩
  · rw [alike.width, if_pos rfl, if_neg nofun]
    refine ⟨alike.symm, ?_⟩
    by_cases same : source.width = dest.width
    · rw [if_pos same.symm, if_pos same, if_neg nofun]
      rfl
    · rw [if_neg (Ne.symm same), if_neg same, Option.isSome_some, if_pos rfl]
      rfl
  · rw [alike.width, if_neg (Nat.ne_of_lt wider), Option.isSome_some, if_pos rfl, if_pos rfl, if_neg nofun]
    exact ⟨rfl, (if_neg (Nat.ne_of_lt wider)).symm ▸ alike.symm⟩

theorem Alike.combined {base : Option ArithOp} (dests : dest.Alike target') (sources : source.Alike source') :
    (Expr.combinedTy base dest source).Alike (Expr.combinedTy base target' source') := by
  unfold Expr.combinedTy
  split
  · exact sources
  · exact congrArg Ty.unqualified (dests.common sources)

theorem Alike.unaryTy {op : UnaryOp} (alike : source.Alike source') :
    (Expr.unaryTy op source).Alike (Expr.unaryTy op source') := by
  cases op <;> first | rfl | exact congrArg Ty.unqualified alike

theorem Alike.binaryTy {op : BinaryOp} (lefts : source.Alike source') (rights : dest.Alike target') :
    (Expr.binaryTy op source dest).Alike (Expr.binaryTy op source' target') := by
  unfold Expr.binaryTy
  rw [lefts.common rights]
  split
  · rfl
  · split
    · exact congrArg Ty.unqualified lefts
    · rfl

end Ty

private theorem ArithOp.sign?_opcode (op : ArithOp) {lhs rhs own : Ty} (alike : own.Alike (lhs.common rhs)) :
    (op.opcode lhs rhs).sign? = op.sign? lhs own := by
  cases op with
  | div | mod | rightShift =>
    simp only [ArithOp.opcode, ArithOp.sign?, alike.isSigned]
    split <;> simp_all [Opcode.sign?]
  | _ => rfl

private theorem CompareOp.sign?_predicate (op : CompareOp) {ty own : Ty} (alike : own.Alike ty) :
    (op.predicate ty).sign? = op.sign? own := by
  cases op with
  | equal | notEqual => rfl
  | _ =>
    simp only [CompareOp.predicate, CompareOp.sign?, alike.isSigned]
    split <;> simp_all [Predicate.sign?]

namespace Expr
variable {fs : Bindings Ty} {sc : Scope}

/-- An operation whose operands have the types that they are annotated with has its type, unless it is an assignment
that does not keep it. -/
private theorem made_binary_iff {op : BinaryOp} {left right : Expr} {note : Note}
    (promised : (binary op left right note).promised fs sc) (isLeft : left.made.Alike left.ty)
    (isRight : right.made.Alike right.ty) :
    (binary op left right note).made.Alike note.ty ↔ (binary op left right note).keeps := by
  have alike : note.ty.Alike (binaryTy op left.ty right.ty) := of_decide_eq_true promised
  cases op with
  | assign base =>
    have isTarget : note.ty.Alike left.ty := alike.trans left.ty.alike_unqualified
    have eq : (binary (.assign base) left right note).made.Alike _ := (isLeft.combined isRight).widened isLeft
    simp only [keeps, decide_eq_true_eq]
    exact ⟨fun isMade => eq.symm.trans (isMade.trans isTarget), fun kept => eq.trans (kept.trans isTarget.symm)⟩
  | _ => exact ⟨fun _ => rfl, fun _ => (isLeft.binaryTy isRight).trans alike.symm⟩

private theorem made_alike : (e : Expr) → (∀ part ∈ e.parts, part.promised fs sc ∧ part.keeps) → e.made.Alike e.ty
  | .int _ _, _ | .char _ _, _ | .string _ _, _ | .ident _ _, _ | .call _ _ _, _ => rfl
  | .unary op arg note, each => by
    have inner := made_alike arg fun part mem => each part (mem_cons_of_mem _ mem)
    have alike : note.ty.Alike (unaryTy op arg.ty) := of_decide_eq_true (each _ (self_mem_parts _)).1
    exact inner.unaryTy.trans alike.symm
  | .binary op left right note, each => by
    have isLeft := made_alike left fun part mem => each part (mem_cons_of_mem _ (mem_append_left _ mem))
    have isRight := made_alike right fun part mem => each part (mem_cons_of_mem _ (mem_append_right _ mem))
    obtain ⟨promised, keeps⟩ := each _ (self_mem_parts _)
    exact (made_binary_iff promised isLeft isRight).2 keeps

private theorem keeps_of_made {e : Expr} (promised : e.promised fs sc)
    (each : ∀ part ∈ e.parts, part.made.Alike part.ty) : e.keeps := by
  cases e with
  | binary op left right note =>
    refine (made_binary_iff promised ?_ ?_).1 (each _ (self_mem_parts _))
    · exact each _ (mem_cons_of_mem _ (mem_append_left _ (self_mem_parts left)))
    · exact each _ (mem_cons_of_mem _ (mem_append_right _ (self_mem_parts right)))
  | _ => rfl

end Expr

namespace Plan
variable {c : Plan} {p p1 q : Spot} {u v w l r : ValueId} {ty lhs rhs : Ty} {k : Kind}

structure Valued (plan : Plan) (v : ValueId) (ty : Ty) : Prop where
  typed : plan.Typed v ty
  value : ∃ kind, plan.graph.kind? v = some kind ∧ kind.isAddress = false

private theorem Made.valued (made : c.Made p v ty q) : c.Valued v ty := ⟨made.typed, made.value⟩

theorem Valued.congr {other : Ty} (valued : c.Valued v ty) (alike : ty.Alike other) : c.Valued v other :=
  { valued with typed := valued.typed.congr alike }

def Bears (plan : Plan) (u : ValueId) (ty : Ty) : Prop := plan.Cell u ty ∨ plan.Valued u ty

theorem Bears.congr {other : Ty} (bears : c.Bears u ty) (alike : ty.Alike other) : c.Bears u other :=
  bears.imp (fun cell => ⟨cell.kind, cell.ty.trans (congrArg (some <| Ty.pointer ·) alike)⟩) (·.congr alike)

theorem Bears.loads (bears : c.Bears u ty) (loads : c.Loads p u v q) : c.Valued v ty := by
  rcases bears with cell | valued
  · exact ((loads.of_cell cell).made nofun).valued.congr ty.alike_unqualified
  · rw [(loads.of_value valued.value).1]
    exact valued

theorem Bears.cell (bears : c.Bears u ty) (hit : c.graph.kind? u = some k) (isAddress : k.isAddress) :
    c.Cell u ty := by
  rcases bears with cell | valued
  · exact cell
  · obtain ⟨kind', found', notAddress⟩ := valued.value
    cases hit.symm.trans found'
    rw [notAddress] at isAddress
    cases isAddress

private theorem Binary.valued {op : Opcode} (binary : c.Binary p op l r v q) (isBinary : op.isBinary)
    (left : c.Bears l lhs) (right : c.Bears r rhs) : c.Valued v (lhs.common rhs) := by
  obtain ⟨_, _, ty, _, ⟨_, _, _, _, loadsLeft, loadsRight, balances⟩, put⟩ := binary
  rw [← balances.common (left.loads loadsLeft).typed (right.loads loadsRight).typed]
  exact (put.made (by rintro rfl; cases isBinary)).valued

private theorem Compares.valued {pred : Predicate} (compares : c.Compares p pred l r v q) : c.Valued v .bool := by
  obtain ⟨_, _, _, _, _, put⟩ := compares
  exact (put.made nofun).valued

private theorem Unary.valued {op : UnaryOp} (unary : c.Unary p op v w q) (arg : c.Valued v ty) :
    c.Valued w (Expr.unaryTy op ty) := by
  obtain ⟨own, isTy, cs⟩ := unary
  obtain ⟨_, isOwn, alike⟩ := arg.typed
  cases isTy.symm.trans isOwn
  have beside {val : Int64} {p w p1} (constant : c.Constant p val own.unqualified w p1) : c.Valued w ty :=
    constant.made.valued.congr (own.alike_unqualified.trans alike)
  have eq : (ty.common ty).Alike (Expr.unaryTy .minus ty) := ty.alike_common_self.trans ty.alike_unqualified.symm
  cases op with
  | plus =>
    obtain ⟨rfl, rfl⟩ := cs
    exact arg.congr ty.alike_unqualified.symm
  | minus =>
    obtain ⟨_, _, constant, binary⟩ := cs
    exact (binary.valued rfl (.inr (beside constant)) (.inr arg)).congr eq
  | logicalNot =>
    obtain ⟨_, _, _, compares⟩ := cs
    exact compares.valued
  | bitNot =>
    obtain ⟨_, _, constant, binary⟩ := cs
    exact (binary.valued rfl (.inr arg) (.inr (beside constant))).congr eq

private theorem Converts.valued (converts : c.Converts p v ty w q) (valued : c.Valued v rhs) : c.Valued w (rhs.widened ty) := by
  obtain ⟨own, isOwn, alike⟩ := valued.typed
  have widened : (own.widened ty).Alike (rhs.widened ty) := alike.widened rfl
  unfold Ty.widened at widened
  cases converts with
  | same isTy none =>
    cases isOwn.symm.trans isTy
    rw [none, if_neg nofun] at widened
    exact valued.congr (alike.symm.trans widened)
  | cast isTy hit put =>
    cases isOwn.symm.trans isTy
    rw [hit, Option.isSome_some, if_pos rfl] at widened
    exact (put.made (by rintro rfl; exact absurd (Builder.castOp_isCast hit) (by decide))).valued.congr
      (ty.alike_unqualified.trans widened)

private theorem Assigns.valued {slot source : ValueId} (assigns : c.Assigns p slot source v q) (cell : c.Cell slot lhs)
    (bears : c.Bears source rhs) : c.Valued v (rhs.widened lhs) := by
  obtain ⟨loaded, _, loads, _, _, _, isTy, points, converts, _⟩ := assigns
  cases cell.ty.symm.trans isTy
  cases points
  exact (converts.valued (bears.loads loads)).congr (Ty.Alike.widened rfl lhs.alike_unqualified)

structure OperatesOn (plan : Plan) (v : ValueId) (data : Inst) (lhs rhs own : Ty) : Prop where
  kind : plan.graph.kind? v = some (.inst data)
  operands : ∃ left right other, plan.graph.operandsOf v = [some left, some right] ∧
    plan.graph.ty? left = some own ∧ plan.graph.ty? right = some other ∧ own.Alike (lhs.common rhs) ∧
    other.Alike (if lhs.width = rhs.width then rhs else lhs.common rhs)

/-- The operation of an expression is done by the instruction for the sign of its operands in the generated code. What
a compound assignment combines may be cast before it is stored. -/
def Formed (plan : Plan) (v : ValueId) : Expr → Prop
  | .binary (.arith op) left right _ =>
    ∃ data own, plan.OperatesOn v data left.ty right.ty own ∧ data.opcode.sign? = op.sign? left.ty own
  | .binary (.compare op) left right _ =>
    ∃ data own predicate, plan.OperatesOn v data left.ty right.ty own ∧ data.attr = .icmp predicate ∧
      predicate.sign? = op.sign? own
  | .binary (.assign (some op)) target value _ =>
    ∃ x data own, plan.OperatesOn x data target.ty value.ty own ∧ data.opcode.sign? = op.sign? target.ty own ∧
      (v = x ∨ plan.graph.operandsOf v = [some x])
  | _ => True

/-- An integer is brought to the width of another type: it is extended by its sign or by zeros, or cut. -/
def Casts (plan : Plan) (v : ValueId) (source target : Ty) (w : ValueId) : Prop :=
  if source.width = target.width then w = v
  else plan.graph.operandsOf w = [some v] ∧ plan.graph.ty? w = some target.unqualified ∧ plan.graph.opcode? w =
    some (if target.width < source.width then .trunc else if source.isSigned then .sext else .zext)

private theorem Converts.casts (converts : c.Converts p v ty w q) (typed : c.Typed v rhs) (isSource : rhs.isInteger)
    (isTarget : ty.isInteger) : c.Casts v rhs ty w := by
  obtain ⟨own, isOwn, alike⟩ := typed
  have known := Ty.castOp_eq (alike.isInteger.trans isSource) isTarget
  rw [alike.width, alike.isSigned] at known
  unfold Casts
  cases converts with
  | same isTy none =>
    cases isOwn.symm.trans isTy
    rw [known] at none
    split at none
    next same => rw [if_pos same]
    next => cases none
  | cast isTy hit put =>
    cases isOwn.symm.trans isTy
    rw [known] at hit
    split at hit
    next => cases hit
    next differ =>
      rw [if_neg differ, Option.some.inj hit]
      exact ⟨put.operands, put.ty, by rw [Graph.opcode?, put.kind]; rfl⟩

/-- The types of two operands once they are unified. -/
theorem Unifies.operands {left right : ValueId} (unifies : c.Unifies p l r left right ty q) (isLeft : c.Bears l lhs)
    (isRight : c.Bears r rhs) : ∃ own other, c.graph.ty? left = some own ∧ c.graph.ty? right = some other ∧
      own.Alike (lhs.common rhs) ∧ other.Alike (if lhs.width = rhs.width then rhs else lhs.common rhs) := by
  obtain ⟨_, _, _, _, loadsLeft, loadsRight, balances⟩ := unifies
  have left := isLeft.loads loadsLeft
  have right := isRight.loads loadsRight
  obtain rfl := balances.common left.typed right.typed
  obtain ⟨_, _, _, isTy, isTy', integer, integer', _, converts, converts'⟩ := balances
  obtain ⟨_, isOwn, alike⟩ := left.typed
  obtain ⟨_, isOwn', alike'⟩ := right.typed
  cases isTy.symm.trans isOwn
  cases isTy'.symm.trans isOwn'
  obtain ⟨same, same'⟩ := Ty.widened_common (alike.isInteger ▸ integer) (alike'.isInteger ▸ integer')
  obtain ⟨own, known, isAlike⟩ := (converts.valued left).typed
  obtain ⟨other, known', isAlike'⟩ := (converts'.valued right).typed
  exact ⟨own, other, known, known', isAlike.trans same, isAlike'.trans same'⟩

private theorem Unifies.operatesOn {op : Opcode} {attr : Attr} {left right : ValueId} {res : Ty}
    (unifies : c.Unifies p l r left right ty p1) (put : c.Puts p1 op res [left, right] attr v q) (isLeft : c.Bears l lhs)
    (isRight : c.Bears r rhs) : ∃ data own, c.OperatesOn v data lhs rhs own ∧ data.opcode = op ∧ data.attr = attr ∧
      own.Alike (lhs.common rhs) := by
  obtain ⟨own, other, known, known', same, same'⟩ := unifies.operands isLeft isRight
  exact ⟨_, own, ⟨put.kind, left, right, other, put.operands, known, known', same, same'⟩, rfl, rfl, same⟩

private theorem Binary.operatesOn {op : Opcode} (binary : c.Binary p op l r v q) (isLeft : c.Bears l lhs)
    (isRight : c.Bears r rhs) : ∃ data own, c.OperatesOn v data lhs rhs own ∧ data.opcode = op ∧
      own.Alike (lhs.common rhs) := by
  obtain ⟨_, _, _, _, unifies, put⟩ := binary
  obtain ⟨data, own, operates, isOp, _, same⟩ := unifies.operatesOn put isLeft isRight
  exact ⟨data, own, operates, isOp, same⟩

theorem Assigns.source {slot source : ValueId} (assigns : c.Assigns p slot source v q) (valued : c.Valued source ty) :
    v = source ∨ c.graph.operandsOf v = [some source] := by
  obtain ⟨loaded, _, loads, _, _, _, _, _, converts, _⟩ := assigns
  obtain ⟨rfl, _⟩ := loads.of_value valued.value
  cases converts with
  | same => exact .inl rfl
  | cast _ _ put => exact .inr put.operands

section Typing
variable {sc : Scope} {fs : Bindings Ty}

theorem Leaves.value {e : Expr} (leaves : c.Leaves sc (some e) p) :
    ∃ u q v q', c.Computes sc e p u q ∧ c.Loads q u v q' := by
  obtain ⟨_, _, cs⟩ := leaves
  cases isResult : c.result with
  | none =>
    simp only [isResult] at cs
    obtain ⟨_, _, _, cs, loads⟩ := cs
    exact ⟨_, _, _, _, cs, loads⟩
  | some slot =>
    simp only [isResult] at cs
    obtain ⟨_, _, _, cs, _, _, loads, _⟩ := cs
    exact ⟨_, _, _, _, cs, loads⟩

private theorem Computes.bears (callees : ∀ n, Option.Rel (fun ty callee => c.graph.ty? callee = some ty)
    (fs.lookup n) (c.callee? n)) : (e : Expr) → (∀ part ∈ e.parts, part.promised fs sc) →
    ∀ {p u q}, c.Computes sc e p u q → c.Bears u e.made
  | .int _ _, _, _, _, _, cs | .char _ _, _, _, _, _, cs => .inr (Constant.made cs).valued
  | .string val note, promised, _, _, _, _ => absurd (promised _ (Expr.self_mem_parts _)) nofun
  | .ident n note, promised, _, _, _, ⟨_, stands⟩ => by
    obtain ⟨hit, isFound, integer, alike⟩ := Expr.integral_ident (promised _ (Expr.self_mem_parts _))
    have cell := (stands hit isFound integer).2
    exact .inl ⟨cell.kind, cell.ty.trans (congrArg (some <| Ty.pointer ·) alike.symm)⟩
  | .unary op arg note, promised, _, _, _, ⟨_, _, ⟨_, _, inner, loads⟩, unary⟩ => by
    have bears := Computes.bears callees arg (fun part mem => promised part (mem_cons_of_mem _ mem)) inner
    exact .inr (unary.valued (bears.loads loads))
  | .binary op left right note, promised, _, _, _, cs => by
    have isLeft {p u q} := @Computes.bears callees left (fun part mem =>
      promised part (mem_cons_of_mem _ (mem_append_left _ mem))) p u q
    have isRight {p u q} := @Computes.bears callees right (fun part mem =>
      promised part (mem_cons_of_mem _ (mem_append_right _ mem))) p u q
    cases op with
    | arith op =>
      obtain ⟨_, _, _, _, ⟨_, _, first, loads⟩, ⟨_, _, second, loads'⟩, binary⟩ := cs
      exact .inr (binary.valued (op.isBinary_opcode _ _) (.inr ((isLeft first).loads loads)) (.inr ((isRight second).loads loads')))
    | compare op =>
      obtain ⟨_, _, _, _, _, _, compares⟩ := cs
      exact .inr compares.valued
    | logic op =>
      obtain ⟨_, _, _, _, _, _, _, _, _, _, _, _, _, _, _, _, _, _, _, _, load⟩ := cs
      exact .inr (load.made nofun).valued
    | assign base =>
      obtain ⟨slot, k, _, dest, hit, isAddress, cs⟩ := cs
      have cell := (isLeft dest).cell hit isAddress
      cases base with
      | none =>
        obtain ⟨_, _, val, assigns⟩ := cs
        exact .inr (assigns.valued cell (isRight val))
      | some op =>
        obtain ⟨_, _, _, _, ⟨_, _, val, loads⟩, binary, assigns⟩ := cs
        have combined := binary.valued (op.isBinary_opcode _ _) (.inl cell) (.inr ((isRight val).loads loads))
        exact .inr (assigns.valued cell (.inr combined))
  | .call function arguments note, promised, _, _, _, ⟨callee, _, _, isCallee, _, ty, _, _, isTy, _, _, put⟩ => by
    have related := callees function
    have isReturn := promised _ (Expr.self_mem_parts _)
    rw [Expr.promised] at isReturn
    cases isKnown : fs.lookup function with
    | none => simp [isKnown] at isReturn
    | some old =>
      rw [isKnown, isCallee] at related
      cases related with
      | some isKnown' =>
        cases isTy.symm.trans isKnown'
        simp only [isKnown, Option.any_some, decide_eq_true_eq] at isReturn
        exact .inr ((put.made nofun).valued.congr isReturn.symm)

/-- Operations are done in the form for their operands, if all values have the types that they are annotated with. -/
theorem Computes.formed (callees : ∀ n, Option.Rel (fun ty callee => c.graph.ty? callee = some ty)
    (fs.lookup n) (c.callee? n)) {e : Expr} (promised : ∀ part ∈ e.parts, part.promised fs sc)
    (alike : ∀ part ∈ e.parts, part.made.Alike part.ty) (cs : c.Computes sc e p v q) : c.Formed v e := by
  cases e with
  | binary op left right note =>
    have bears {inner : Expr} (within : inner ∈ (Expr.binary op left right note).parts) {p u q}
        (cs : c.Computes sc inner p u q) : c.Bears u inner.ty :=
      (Computes.bears callees inner (fun part mem => promised part (Expr.parts_trans _ within mem)) cs).congr
        (alike inner within)
    have isLeft {p u q} := @bears left (mem_cons_of_mem _ (mem_append_left _ left.self_mem_parts)) p u q
    have isRight {p u q} := @bears right (mem_cons_of_mem _ (mem_append_right _ right.self_mem_parts)) p u q
    cases op with
    | arith op =>
      obtain ⟨_, _, _, _, ⟨_, _, code, loads⟩, ⟨_, _, code', loads'⟩, binary⟩ := cs
      obtain ⟨data, own, operates, isOp, same⟩ :=
        binary.operatesOn (.inr ((isLeft code).loads loads)) (.inr ((isRight code').loads loads'))
      exact ⟨data, own, operates, by rw [isOp, op.sign?_opcode same]⟩
    | compare op =>
      obtain ⟨_, _, _, _, ⟨_, _, code, loads⟩, ⟨_, _, code', loads'⟩, _, _, _, _, unifies, put⟩ := cs
      obtain ⟨data, own, operates, _, isAttr, same⟩ :=
        unifies.operatesOn put (.inr ((isLeft code).loads loads)) (.inr ((isRight code').loads loads'))
      exact ⟨data, own, _, operates, isAttr, op.sign?_predicate same⟩
    | logic op => trivial
    | assign base =>
      cases base with
      | none => trivial
      | some op =>
        obtain ⟨slot, kind, _, target, found, isAddress, _, x, _, _, ⟨_, _, code, loads⟩, binary, assigns⟩ := cs
        have cell := (isLeft target).cell found isAddress
        have value := (isRight code).loads loads
        obtain ⟨data, own, operates, isOp, same⟩ := binary.operatesOn (.inl cell) (.inr value)
        have combined := binary.valued (op.isBinary_opcode _ _) (.inl cell) (.inr value)
        exact ⟨x, data, own, operates, by rw [isOp, op.sign?_opcode same], assigns.source combined⟩
  | _ => trivial

end Typing

section Coded
variable {sc : Scope}

mutual
/-- Code that computes an expression has code for every expression in it. -/
theorem Computes.part : (e : Expr) → ∀ {p v q}, c.Computes sc e p v q → ∀ part ∈ e.parts,
    ∃ p v q, c.Computes sc part p v q
  | .int _ _, _, _, _, code, _, member | .char _ _, _, _, _, code, _, member
  | .string _ _, _, _, _, code, _, member | .ident _ _, _, _, _, code, _, member =>
    mem_singleton.1 member ▸ ⟨_, _, _, code⟩
  | .unary op arg note, _, _, _, code, part, member => by
    rcases mem_cons.1 member with rfl | member
    · exact ⟨_, _, _, code⟩
    · obtain ⟨_, _, ⟨_, _, inner, _⟩, _⟩ := code
      exact Computes.part arg inner part member
  | .binary op left right note, _, _, _, code, part, member => by
    rcases mem_cons.1 member with rfl | member
    · exact ⟨_, _, _, code⟩
    have both : (∃ p v q, c.Computes sc left p v q) ∧ ∃ p v q, c.Computes sc right p v q := by
      cases op with
      | arith op | compare op =>
        obtain ⟨_, _, _, _, ⟨_, _, inner, _⟩, ⟨_, _, inner', _⟩, _⟩ := code
        exact ⟨⟨_, _, _, inner⟩, _, _, _, inner'⟩
      | logic op =>
        obtain ⟨_, _, _, _, _, _, _, _, _, _, _, _, ⟨_, _, ⟨_, _, inner, _⟩, _⟩, _, _, _, ⟨_, _, ⟨_, _, inner', _⟩, _⟩,
          _⟩ := code
        exact ⟨⟨_, _, _, inner⟩, _, _, _, inner'⟩
      | assign base =>
        obtain ⟨_, _, _, inner, _, _, code⟩ := code
        cases base with
        | none =>
          obtain ⟨_, _, inner', _⟩ := code
          exact ⟨⟨_, _, _, inner⟩, _, _, _, inner'⟩
        | some op =>
          obtain ⟨_, _, _, _, ⟨_, _, inner', _⟩, _⟩ := code
          exact ⟨⟨_, _, _, inner⟩, _, _, _, inner'⟩
    obtain ⟨⟨_, _, _, inner⟩, _, _, _, inner'⟩ := both
    rcases mem_append.1 member with member | member
    · exact Computes.part left inner part member
    · exact Computes.part right inner' part member
  | .call function arguments note, _, _, _, code, part, member => by
    rcases mem_cons.1 member with rfl | member
    · exact ⟨_, _, _, code⟩
    · obtain ⟨_, _, _, _, inner, _⟩ := code
      exact ComputesAll.part arguments inner part member

theorem ComputesAll.part : (es : List Expr) → ∀ {p vs q}, c.ComputesAll sc es p vs q → ∀ part ∈ Expr.partsAll es,
    ∃ p v q, c.Computes sc part p v q
  | e :: rest, _, _, _, ⟨_, _, _, code, others, _⟩, part, member => by
    rcases mem_append.1 member with member | member
    · exact Computes.part e code part member
    · exact ComputesAll.part rest others part member
end

theorem Declares.whole : (decls : List Decl) → ∀ {scope p q}, c.Declares scope decls p q →
    ∀ whole ∈ wholesDecls scope decls, ∃ p v q, c.Computes whole.1 whole.2 p v q
  | d :: rest, scope, _, _, ⟨_, _, _, _, initial, declares⟩, whole, member => by
    rcases mem_append.1 member with member | member
    · obtain ⟨e, isInitial, rfl⟩ := mem_map.1 member
      rw [Option.mem_toList.1 isInitial] at initial
      obtain ⟨_, _, _, code, _⟩ := initial
      exact ⟨_, _, _, code⟩
    · exact Declares.whole rest declares whole member

mutual
/-- Every whole expression of a statement has code. -/
theorem Performs.whole : (s : Stmt) → ∀ {loop scope p q}, c.Performs loop scope s p q → ∀ whole ∈ s.wholes scope,
    ∃ p v q, c.Computes whole.1 whole.2 p v q
  | .expr e _, _, _, _, _, ⟨_, code⟩, _, member => mem_singleton.1 member ▸ ⟨_, _, _, code⟩
  | .compound body _, _, _, _, _, ⟨_, _, _, performs, _⟩, whole, member =>
    PerformsAll.whole body performs whole member
  | .declare decls _, _, _, _, _, declares, whole, member => Declares.whole decls declares whole member
  | .ifElse condition thenStmt none _, _, _, _, _, ⟨_, _, _, _, _, _, _, ⟨_, _, ⟨_, _, code, _⟩, _⟩, _, performs, _⟩,
    whole, member => by
    rcases mem_cons.1 member with rfl | member
    · exact ⟨_, _, _, code⟩
    · exact Performs.whole thenStmt performs whole member
  | .ifElse condition thenStmt (some elseStmt) _, _, _, _, _,
    ⟨_, _, _, _, _, _, _, _, _, _, ⟨_, _, ⟨_, _, code, _⟩, _⟩, _, performs, _, performs', _⟩, whole, member => by
    rcases mem_cons.1 member with rfl | member
    · exact ⟨_, _, _, code⟩
    rcases mem_append.1 member with member | member
    · exact Performs.whole thenStmt performs whole member
    · exact Performs.whole elseStmt performs' whole member
  | .whileDo condition body _, _, _, _, _, ⟨_, _, _, _, _, _, _, _, _, _, ⟨_, _, ⟨_, _, code, _⟩, _⟩, _, performs, _⟩,
    whole, member => by
    rcases mem_cons.1 member with rfl | member
    · exact ⟨_, _, _, code⟩
    · exact Performs.whole body performs whole member
  | .ret (some e) _, _, _, _, _, ⟨leaves, _⟩, whole, member => by
    obtain ⟨_, _, _, _, code, _⟩ := leaves.value
    exact mem_singleton.1 member ▸ ⟨_, _, _, code⟩

theorem PerformsAll.whole : (ss : List Stmt) → ∀ {loop scope p q}, c.PerformsAll loop scope ss p q →
    ∀ whole ∈ Stmt.wholesAll scope ss, ∃ p v q, c.Computes whole.1 whole.2 p v q
  | s :: rest, _, _, _, _, ⟨_, performs, performs'⟩, whole, member => by
    rcases mem_append.1 member with member | member
    · exact Performs.whole s performs whole member
    · exact PerformsAll.whole rest performs' whole member
end

theorem PerformsBody.part {f : FuncDef} {names : Bindings Variable}
    (performs : c.PerformsBody (f.scope names) f.body p q) :
    ∀ part ∈ f.parts names, ∃ p v q, c.Computes part.1 part.2 p v q := by
  intro part member
  obtain ⟨whole, isWhole, within⟩ := mem_flatMap.1 member
  obtain ⟨inner, isInner, rfl⟩ := mem_map.1 within
  have computed : ∃ p v q, c.Computes whole.1 whole.2 p v q := by
    generalize f.body = body at performs isWhole
    cases body with
    | compound body _ => exact PerformsAll.whole body performs whole isWhole
    | _ => exact Performs.whole _ performs whole isWhole
  obtain ⟨_, _, _, code⟩ := computed
  exact Computes.part whole.2 code inner isInner

end Coded
end Plan

/-- For a function over integers with the annotations that a front end promises: every expression in it has code that
computes it, and whatever code does so, the value has the type that was made for the expression. These types are the
annotations if and only if every assignment keeps the type of its variable. Then division, remainder and comparison
are in signed form just if their left operand has a signed type in the generated code, a right shift just if what is
shifted is annotated so, and an integer is widened by its sign just if it is annotated as signed. -/
theorem lowered_values_typed {unit : String} {front : List Item} {results : List (Except LowerError Unit)} {f : FuncDef}
    {s middle : Lowering} {outer : Outer} (earlier : (Lowering.start unit).outcomes front = .ok (results, s))
    (known : Outer.items {} front results = outer) (lowered : (Lower.function f).run s = .ok (.ok (), middle))
    (promised : ∀ part ∈ f.parts outer.names, part.2.promised (outer.item (.func f) (.ok ())).functions part.1) :
    ∃ func, ∃ plan : Plan, plan.Realizes f outer middle.module func ∧
      (∀ part ∈ f.parts outer.names, ∃ p u q, plan.Computes part.1 part.2 p u q) ∧
      (∀ part ∈ f.parts outer.names, ∀ p u q p' v q', plan.Computes part.1 part.2 p u q → plan.Loads p' u v q' →
        plan.Typed v part.2.made) ∧
      ((∀ part ∈ f.parts outer.names, part.2.made.Alike part.2.ty) ↔ ∀ part ∈ f.parts outer.names, part.2.keeps) ∧
      ((∀ part ∈ f.parts outer.names, part.2.keeps) → ∀ part ∈ f.parts outer.names, ∀ p u q,
        plan.Computes part.1 part.2 p u q → plan.Formed u part.2 ∧
          ∀ p' v q' spot target w spot', plan.Loads p' u v q' → plan.Converts spot v target w spot' →
            part.2.ty.isInteger → target.isInteger → plan.Casts v part.2.ty target w) := by
  subst known
  obtain ⟨func, plan, realizes⟩ := ((Lowering.knows_start unit).outcomes earlier).lowered lowered
  obtain ⟨_, _, _, _, _, _, _, _, _, performs, _⟩ := realizes.body
  have alike (keeps : ∀ part ∈ f.parts _, part.2.keeps) : ∀ part ∈ f.parts _, part.2.made.Alike part.2.ty :=
    fun part member => part.2.made_alike fun inner within =>
      ⟨promised _ (f.parts_trans member within), keeps _ (f.parts_trans member within)⟩
  have bears {part p u q} (member : part ∈ f.parts _) (code : plan.Computes part.1 part.2 p u q) :=
    Plan.Computes.bears realizes.callees part.2 (fun inner within => promised _ (f.parts_trans member within)) code
  refine ⟨func, plan, realizes, Plan.PerformsBody.part performs, ?_, ⟨?_, alike⟩, ?_⟩
  · intro part member p u q p' v q' code loads
    exact ((bears member code).loads loads).typed
  · intro same part member
    exact Expr.keeps_of_made (promised part member) fun inner within => same _ (f.parts_trans member within)
  · intro keeps part member p u q code
    refine ⟨Plan.Computes.formed realizes.callees (fun inner within => promised _ (f.parts_trans member within))
      (fun inner within => alike keeps (part.1, inner) (f.parts_trans member within)) code, ?_⟩
    intro p' v q' spot target w spot' loads converts isSource isTarget
    have typed := ((bears member code).loads loads).typed.congr (alike keeps part member)
    exact converts.casts typed isSource isTarget

def narrows : FuncDef where
  name := "narrows"
  returnType := .int32
  params := [{ name := "x", ty := .int8 }, { name := "y", ty := .int32 }]
  body := .compound [
    .ret (some (.ofBinary (.arith .add) (.ofName "y" .int32) (.ofBinary (.assign none) (.ofName "x" .int8)
      (.ofBinary (.arith .div) (.ofCall "narrows" [.ofName "x" .int8, .ofInt 1] .int32) (.ofName "y" .int32))))) .unknown]
    .unknown

theorem narrows_typed : ∃ (middle : Lowering) (func : ValueId) (plan : Plan),
    (Lower.function narrows).run (.start "unit") = .ok (.ok (), middle) ∧ plan.Realizes narrows {} middle.module func ∧
      (narrows.parts []).length = 9 ∧ ∀ part ∈ narrows.parts [], (∃ p u q, plan.Computes part.1 part.2 p u q) ∧
        ∀ p u q, plan.Computes part.1 part.2 p u q → plan.Formed u part.2 ∧
          ∀ p' v q', plan.Loads p' u v q' → plan.Typed v part.2.ty := by
  obtain ⟨⟨result, middle⟩, lowered, isOk⟩ := @ok_of_toOption_map _ _ _ ((Lower.function narrows).run (.start "unit"))
    (fun pair => pair.1.toOption.isSome) true (by decide +kernel)
  cases result with
  | error e => cases isOk
  | ok value =>
    have earlier : (Lowering.start "unit").outcomes [] = .ok ([], .start "unit") := rfl
    obtain ⟨func, plan, realizes, coded, typed, iff, formed⟩ :=
      lowered_values_typed earlier rfl lowered (by decide +kernel)
    have keeps : ∀ part ∈ narrows.parts [], part.2.keeps := by decide +kernel
    refine ⟨middle, func, plan, lowered, realizes, by decide +kernel, fun part member => ⟨coded part member, ?_⟩⟩
    intro p u q code
    refine ⟨(formed keeps part member p u q code).1, fun p' v q' loads => ?_⟩
    exact (typed part member p u q p' v q' code loads).congr (iff.2 keeps part member)

/-- A function that returns the value of an assignment between numbers of one width and different signs. -/
def reinterprets : FuncDef where
  name := "reinterprets"
  returnType := .int32
  params := [{ name := "x", ty := .int8 }, { name := "u", ty := .uint8 }]
  body := .compound [
    .ret (some (.ofBinary (.assign none) (.ofName "x" .int8) (.ofName "u" .uint8))) .unknown] .unknown

theorem assigned_value_unlike_annotation : ∃ (middle : Lowering) (func : ValueId) (plan : Plan) (e : Expr) (p q q' : Spot)
    (u v : ValueId), (Lower.function reinterprets).run (.start "unit") = .ok (.ok (), middle) ∧
      plan.Realizes reinterprets {} middle.module func ∧
      (∀ part ∈ reinterprets.parts [], part.2.promised [("reinterprets", reinterprets.ty)] part.1) ∧
      (reinterprets.scope [], e) ∈ reinterprets.parts [] ∧ e.ty = .int8 ∧
      plan.Computes (reinterprets.scope []) e p u q ∧ plan.Loads q u v q' ∧ plan.Typed v .uint8 ∧
      ¬ plan.Typed v e.ty := by
  obtain ⟨⟨result, middle⟩, lowered, isOk⟩ := @ok_of_toOption_map _ _ _
    ((Lower.function reinterprets).run (.start "unit")) (fun pair => pair.1.toOption.isSome) true (by decide +kernel)
  cases result with
  | error e => cases isOk
  | ok value =>
    obtain ⟨func, plan, realizes⟩ := (Lowering.knows_start "unit").lowered lowered
    obtain ⟨_, _, _, _, _, _, _, _, _, ⟨_, ⟨leaves, _⟩, _⟩, _⟩ := realizes.body
    obtain ⟨u, q, v, q', code, loads⟩ := leaves.value
    have promised : ∀ part ∈ reinterprets.parts [], part.2.promised [("reinterprets", reinterprets.ty)] part.1 := by
      decide +kernel
    have member : (reinterprets.scope [], Expr.ofBinary (.assign none) (.ofName "x" .int8) (.ofName "u" .uint8)) ∈
        reinterprets.parts [] := .head _
    have bears := Plan.Computes.bears realizes.callees _
      (fun inner within => promised _ (reinterprets.parts_trans member within)) code
    have typed : plan.Typed v .uint8 := (bears.loads loads).typed
    refine ⟨middle, func, plan, _, _, q, q', u, v, lowered, realizes, promised, member, rfl, code, loads, typed, ?_⟩
    rintro ⟨_, isTy', alike'⟩
    obtain ⟨_, isTy, alike⟩ := typed
    cases isTy.symm.trans isTy'
    exact absurd (alike.symm.trans alike') (by decide)

end Midend
