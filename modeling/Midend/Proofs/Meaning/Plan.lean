import Midend.Proofs.Meaning.Source
import Midend.Proofs.Module.Operations

/-! What the code of a function looks like, for each construct of the source. A plan says where
the variables are kept; code leads from one spot to another one. -/
namespace Midend

/-- How far code was built: a block, how many instructions it has, and how many values there
are. -/
structure Spot where
  block : ValueId
  index : Nat
  size : Nat
deriving DecidableEq, Repr

namespace Spot

def grow (p : Spot) : Spot := { p with size := p.size + 1 }

def next (p : Spot) : Spot := ⟨p.block, p.index + 1, p.size + 1⟩

end Spot

def Module.spot (m : Module) (here : ValueId) : Spot :=
  ⟨here, (m.graph.code here).length, m.graph.values.size⟩

/-- The code of a function, and where it keeps the variables of the source. -/
structure Plan where
  graph : Graph
  entry : ValueId
  exit : ValueId
  result : Option ValueId
  slots : List ValueId
  global : String → Option ValueId
  functions : List ValueId
  start : Nat

namespace Plan
variable (c : Plan)

def cell? : Place → Option ValueId
  | .slot number => c.slots[number]?
  | .global name => c.global name

def callee? (name : String) : Option ValueId :=
  c.functions.find? fun id =>
    match c.graph.kind? id with
    | some (.function f) => f.name == name
    | _ => false

structure Slotted (slot : ValueId) (ty : Ty) (name : Option String) : Prop where
  listed : slot ∈ c.graph.code c.entry
  kind : c.graph.kind? slot = some (.inst ⟨.alloca, c.entry, .alloca name⟩)
  ty : c.graph.ty? slot = some (.pointer ty.unqualified)

structure Cell (v : ValueId) (ty : Ty) : Prop where
  kind : (∃ name, c.graph.kind? v = some (.global name)) ∨ ∃ ty name, c.Slotted v ty (some name)
  ty : c.graph.ty? v = some (.pointer ty.unqualified)

structure Puts (p : Spot) (op : Opcode) (ty : Ty) (operands : List ValueId) (attr : Attr)
    (inst : ValueId) (q : Spot) : Prop where
  listed : (c.graph.code p.block)[p.index]? = some inst
  kind : c.graph.kind? inst = some (.inst ⟨op, p.block, attr⟩)
  ty : c.graph.ty? inst = some ty
  operands : c.graph.operandsOf inst = operands.map some
  fresh : inst = ⟨p.size⟩
  next : q = p.next

structure Constant (p : Spot) (value : Int64) (ty : Ty) (v : ValueId) (q : Spot) : Prop where
  kind : c.graph.kind? v = some (.constInt value)
  ty : c.graph.ty? v = some ty
  fresh : v = ⟨p.size⟩
  next : q = p.grow

inductive Loads (p : Spot) (v : ValueId) : ValueId → Spot → Prop
  | plain {kind : Kind} (found : c.graph.kind? v = some kind) (notAddress : kind.isAddress = false) :
      Loads p v v p
  | address {kind : Kind} {ty pointee : Ty} {w : ValueId} {q : Spot} (found : c.graph.kind? v = some kind)
      (isAddress : kind.isAddress) (isTy : c.graph.ty? v = some ty) (points : ty.pointee? = some pointee)
      (put : c.Puts p .load pointee [v] .none w q) : Loads p v w q

inductive Converts (p : Spot) (v : ValueId) (ty : Ty) : ValueId → Spot → Prop
  | same {source : Ty} (isTy : c.graph.ty? v = some source) (none : Builder.castOp source ty = none) :
      Converts p v ty v p
  | cast {source : Ty} {op : Opcode} {w : ValueId} {q : Spot} (isTy : c.graph.ty? v = some source)
      (found : Builder.castOp source ty = some op) (put : c.Puts p op ty.unqualified [v] .none w q) :
      Converts p v ty w q

def Balances (p : Spot) (l r left right : ValueId) (ty : Ty) (q : Spot) : Prop :=
  ∃ leftTy rightTy p₁, c.graph.ty? l = some leftTy ∧ c.graph.ty? r = some rightTy ∧
    leftTy.isInteger ∧ rightTy.isInteger ∧ ty = leftTy.common rightTy ∧
    c.Converts p l ty left p₁ ∧ c.Converts p₁ r ty right q

def Unifies (p : Spot) (lhs rhs left right : ValueId) (ty : Ty) (q : Spot) : Prop :=
  ∃ l r p₁ p₂, c.Loads p lhs l p₁ ∧ c.Loads p₁ rhs r p₂ ∧ c.Balances p₂ l r left right ty q

def Binary (p : Spot) (op : Opcode) (lhs rhs v : ValueId) (q : Spot) : Prop :=
  ∃ left right ty p₁, c.Unifies p lhs rhs left right ty p₁ ∧ c.Puts p₁ op ty [left, right] .none v q

def Compares (p : Spot) (predicate : Predicate) (lhs rhs v : ValueId) (q : Spot) : Prop :=
  ∃ left right ty p₁, c.Unifies p lhs rhs left right ty p₁ ∧
    c.Puts p₁ .icmp .bool [left, right] (.icmp predicate) v q

inductive Tests (p : Spot) (v : ValueId) : ValueId → Spot → Prop
  | truth {ty : Ty} (isTy : c.graph.ty? v = some ty) (isBool : ty.isBool) : Tests p v v p
  | compare {ty : Ty} {zero w : ValueId} {p₁ q : Spot} (isTy : c.graph.ty? v = some ty)
      (notBool : ty.isBool = false) (made : c.Constant p 0 ty.unqualified zero p₁)
      (compared : c.Compares p₁ .ne v zero w q) : Tests p v w q

def Unary (p : Spot) (op : UnaryOp) (v w : ValueId) (q : Spot) : Prop :=
  ∃ ty, c.graph.ty? v = some ty ∧
    match op with
    | .plus => w = v ∧ q = p
    | .minus => ∃ zero p₁, c.Constant p 0 ty.unqualified zero p₁ ∧ c.Binary p₁ .sub zero v w q
    | .logicalNot => ∃ zero p₁, c.Constant p 0 ty.unqualified zero p₁ ∧ c.Compares p₁ .eq v zero w q
    | .bitNot => ∃ ones p₁, c.Constant p (-1) ty.unqualified ones p₁ ∧ c.Binary p₁ .xor v ones w q

def Stores (p : Spot) (value ptr : ValueId) (q : Spot) : Prop :=
  ∃ inst, c.Puts p .store .void [value, ptr] .none inst q

def Saves (p : Spot) (slot v value : ValueId) (q : Spot) : Prop :=
  ∃ p₁ ty pointee, c.graph.ty? slot = some ty ∧ ty.pointee? = some pointee ∧
    c.Converts p v pointee value p₁ ∧ c.Stores p₁ value slot q

def Assigns (p : Spot) (slot source value : ValueId) (q : Spot) : Prop :=
  ∃ loaded p₁, c.Loads p source loaded p₁ ∧ c.Saves p₁ slot loaded value q

def Passes : List (ValueId × Ty) → Spot → List ValueId → Spot → Prop
  | [], p, values, q => values = [] ∧ q = p
  | (source, ty) :: rest, p, values, q =>
    ∃ loaded value others p₁ p₂, c.Loads p source loaded p₁ ∧ c.Converts p₁ loaded ty value p₂ ∧
      Passes rest p₂ others q ∧ values = value :: others

def Calls (p : Spot) (callee : ValueId) (sources : List ValueId) (v : ValueId) (q : Spot) : Prop :=
  ∃ ty values p₁, c.graph.ty? callee = some ty ∧ ty.paramTypes.length = sources.length ∧
    c.Passes (sources.zip ty.paramTypes) p values p₁ ∧
    c.Puts p₁ .call (ty.returnType?.getD .void) (callee :: values) .none v q

def Jumps (p : Spot) (target : ValueId) : Prop :=
  ∃ size inst q, c.Puts { p with size } .jmp .void [target] .none inst q

def Branches (p : Spot) (condition thenBlock elseBlock : ValueId) : Prop :=
  ∃ size inst q, c.Puts { p with size } .br .void [condition, thenBlock, elseBlock] .none inst q

abbrev Giving := Spot → ValueId → Spot → Prop

def Value (giving : Giving) : Giving := fun p v q => ∃ u p₁, giving p u p₁ ∧ c.Loads p₁ u v q

def Condition (giving : Giving) : Giving := fun p v q => ∃ u p₁, c.Value giving p u p₁ ∧ c.Tests p₁ u v q

def Decides (p : Spot) (op : LogicOp) (lhs rhsBlock endBlock : ValueId) : Prop :=
  match op with
  | .and => c.Branches p lhs rhsBlock endBlock
  | .or => c.Branches p lhs endBlock rhsBlock

def Connects (op : LogicOp) (left right : Giving) : Giving := fun p v q =>
  ∃ slot lhs rhs rhsBlock endBlock p₁ p₂ p₃ p₄ n k, c.Slotted slot .bool none ∧
    c.Condition left p.grow lhs p₁ ∧ c.Stores p₁ lhs slot p₂ ∧ c.Decides p₂ op lhs rhsBlock endBlock ∧
    p₂.size ≤ n ∧ c.Condition right ⟨rhsBlock, 0, n⟩ rhs p₃ ∧ c.Stores p₃ rhs slot p₄ ∧
    c.Jumps p₄ endBlock ∧ p₄.size ≤ k ∧ c.Puts ⟨endBlock, 0, k⟩ .load .bool [slot] .none v q

def Updates (base : Option Opcode) (target value : Giving) : Giving := fun p v q =>
  ∃ slot kind p₁, target p slot p₁ ∧ c.graph.kind? slot = some kind ∧ kind.isAddress ∧
    match base with
    | none => ∃ u p₂, value p₁ u p₂ ∧ c.Assigns p₂ slot u v q
    | some op => ∃ u x p₂ p₃, c.Value value p₁ u p₂ ∧ c.Binary p₂ op slot u x p₃ ∧ c.Assigns p₃ slot x v q

def Stands (scope : Scope) (name : String) (v : ValueId) : Prop :=
  ∀ found, scope.lookup name = some found → found.ty.isInteger → c.cell? found.place = some v ∧ c.Cell v found.ty

mutual
/-- Code that computes an expression. A variable is computed to its cell. -/
def Computes (scope : Scope) : Expr → Giving
  | .int value note => fun p v q => c.Constant p value note.ty v q
  | .char value note => fun p v q => c.Constant p (Int64.ofNat value.toNat) note.ty v q
  | .string value _ => fun p v q => c.graph.kind? v = some (.constStr value) ∧ v = ⟨p.size⟩ ∧ q = p.grow
  | .ident name _ => fun p v q => q = p ∧ c.Stands scope name v
  | .unary op operand _ => fun p v q =>
    ∃ u p₁, c.Value (Computes scope operand) p u p₁ ∧ c.Unary p₁ op u v q
  | .binary (.arith op) left right _ => fun p v q =>
    ∃ l r p₁ p₂, c.Value (Computes scope left) p l p₁ ∧ c.Value (Computes scope right) p₁ r p₂ ∧
      c.Binary p₂ (op.opcode left.ty right.ty) l r v q
  | .binary (.compare op) left right _ => fun p v q =>
    ∃ l r p₁ p₂, c.Value (Computes scope left) p l p₁ ∧ c.Value (Computes scope right) p₁ r p₂ ∧
      c.Compares p₂ (op.predicate (left.ty.common right.ty)) l r v q
  | .binary (.logic op) left right _ => c.Connects op (Computes scope left) (Computes scope right)
  | .binary (.assign base) target value _ =>
    c.Updates (base.map (·.opcode target.ty value.ty)) (Computes scope target) (Computes scope value)
  | .call function arguments _ => fun p v q =>
    ∃ callee us p₁, c.callee? function = some callee ∧ ComputesAll scope arguments p us p₁ ∧ c.Calls p₁ callee us v q
termination_by structural e => e

def ComputesAll (scope : Scope) : List Expr → Spot → List ValueId → Spot → Prop
  | [], p, us, q => us = [] ∧ q = p
  | e :: rest, p, us, q => ∃ u others p₁, Computes scope e p u p₁ ∧ ComputesAll scope rest p₁ others q ∧ us = u :: others
termination_by structural es => es
end

def Declares : Scope → List Decl → Spot → Spot → Prop
  | _, [], p, q => q = p
  | scope, d :: rest, p, q =>
    ∃ slot p₁, c.slots[scope.declared]? = some slot ∧ c.Slotted slot d.ty (some d.name) ∧
      (match d.initializer with
        | none => p₁ = p.grow
        | some e => ∃ u p₂ v, c.Computes scope e p.grow u p₂ ∧ c.Assigns p₂ slot u v p₁) ∧
      Declares (scope.declare d.name d.ty) rest p₁ q

def Leaves (scope : Scope) (value : Option Expr) (p : Spot) : Prop :=
  ∃ p₁, c.Jumps p₁ c.exit ∧
    match value, c.result with
    | none, _ => p₁ = p
    | some e, none => ∃ v, c.Value (c.Computes scope e) p v p₁
    | some e, some slot => ∃ u p₂ v, c.Computes scope e p u p₂ ∧ c.Assigns p₂ slot u v p₁

mutual
def Performs (loop : Option LoopTargets) (scope : Scope) : Stmt → Spot → Spot → Prop
  | .expr e _ => fun p q => ∃ v, c.Computes scope e p v q
  | .compound body _ => fun p q =>
    ∃ block n, c.Jumps p block ∧ PerformsAll loop scope.push body ⟨block, 0, n⟩ q ∧ p.size ≤ n
  | .declare decls _ => c.Declares scope decls
  | .ifElse condition thenStmt none _ => fun p q =>
    ∃ v thenBlock endBlock p₁ p₂ n k, c.Condition (c.Computes scope condition) p v p₁ ∧
      c.Branches p₁ v thenBlock endBlock ∧ Performs loop scope thenStmt ⟨thenBlock, 0, n⟩ p₂ ∧
      c.Jumps p₂ endBlock ∧ q = ⟨endBlock, 0, k⟩ ∧ p₁.size ≤ n ∧ p.size ≤ k
  | .ifElse condition thenStmt (some elseStmt) _ => fun p q =>
    ∃ v thenBlock elseBlock endBlock p₁ p₂ p₃ n k j, c.Condition (c.Computes scope condition) p v p₁ ∧
      c.Branches p₁ v thenBlock elseBlock ∧ Performs loop scope thenStmt ⟨thenBlock, 0, n⟩ p₂ ∧
      c.Jumps p₂ endBlock ∧ Performs loop (thenStmt.after scope) elseStmt ⟨elseBlock, 0, k⟩ p₃ ∧
      c.Jumps p₃ endBlock ∧ q = ⟨endBlock, 0, j⟩ ∧ p₁.size ≤ n ∧ p₁.size ≤ k ∧ p.size ≤ j
  | .whileDo condition body _ => fun p q =>
    ∃ v condBlock bodyBlock endBlock p₁ p₂ n k j, c.Jumps p condBlock ∧
      c.Condition (c.Computes scope condition) ⟨condBlock, 0, n⟩ v p₁ ∧
      c.Branches p₁ v bodyBlock endBlock ∧
      Performs (some ⟨condBlock, endBlock⟩) scope body ⟨bodyBlock, 0, k⟩ p₂ ∧ c.Jumps p₂ condBlock ∧
      q = ⟨endBlock, 0, j⟩ ∧ p.size ≤ n ∧ p₁.size ≤ k ∧ p.size ≤ j
  | .breakLoop _ => fun p q => ∃ targets, loop = some targets ∧ c.Jumps p targets.breakBlock ∧ p.size ≤ q.size
  | .continueLoop _ => fun p q => ∃ targets, loop = some targets ∧ c.Jumps p targets.continueBlock ∧ p.size ≤ q.size
  | .ret value _ => fun p q => c.Leaves scope value p ∧ p.size ≤ q.size
  | .empty _ => fun p q => q = p
termination_by structural s => s

def PerformsAll (loop : Option LoopTargets) (scope : Scope) : List Stmt → Spot → Spot → Prop
  | [] => fun p q => q = p
  | s :: rest => fun p q =>
    ∃ p₁, Performs loop scope s p p₁ ∧ PerformsAll loop (s.after scope) rest p₁ q
termination_by structural ss => ss
end

end Plan
end Midend
