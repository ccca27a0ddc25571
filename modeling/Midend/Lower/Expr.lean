import Midend.Tree.Expr
import Midend.Lower.Basic

/-! Lowering of expressions. A variable is lowered to its address, and whoever takes the
value of an operand loads it. -/
namespace Midend

/-- The instruction of an arithmetic operator. Division and remainder take the signs into
account if the common type is signed, a right shift if the type of what is shifted is. -/
def ArithOp.opcode (op : ArithOp) (lhs rhs : Ty) : Opcode :=
  match op with
  | .add => .add
  | .sub => .sub
  | .mul => .mul
  | .div => if (lhs.common rhs).isSigned then .sdiv else .udiv
  | .mod => if (lhs.common rhs).isSigned then .srem else .urem
  | .bitAnd => .and
  | .bitOr => .or
  | .bitXor => .xor
  | .leftShift => .shl
  | .rightShift => if lhs.isSigned then .ashr else .lshr

def CompareOp.predicate (op : CompareOp) (ty : Ty) : Predicate :=
  match op with
  | .equal => .eq
  | .notEqual => .ne
  | .less => if ty.isSigned then .slt else .ult
  | .lessEqual => if ty.isSigned then .sle else .ule
  | .greater => if ty.isSigned then .sgt else .ugt
  | .greaterEqual => if ty.isSigned then .sge else .uge

namespace Lower

def targetOf (location : Location) (slot : ValueId) : Lower ValueId := do
  if (← build (Builder.ask (·.kind slot))).isAddress then return slot
  else fail (.invalidAssignTarget location)

def integerOf (location : Location) (value : ValueId) : Lower ValueId := do
  let value ← build (Builder.valueOf value)
  let ty ← build (Builder.ask (·.ty value))
  if ty.isInteger then return value
  else fail (.nonIntegerOperand ty.text location)

def toBool (value : ValueId) : Builder ValueId := do
  let ty ← Builder.ask (·.ty value)
  if ty.isBool then return value
  let zero ← Builder.constInt 0 ty.unqualified
  Builder.icmp .ne value zero

def conditionOf (location : Location) (value : ValueId) : Lower ValueId := do
  let value ← build (Builder.valueOf value)
  let ty ← build (Builder.ask (·.ty value))
  if ty.isInteger then build (toBool value)
  else fail (.nonIntegerCondition ty.text location)

def checkIntegerSlot (location : Location) (slot : ValueId) : Lower Unit := do
  let stored := (← build (Builder.ask (·.ty slot))).pointee?
  unless stored.any Ty.isInteger do
    fail (.nonIntegerOperand (stored.getD .void).text location)

def unary (op : UnaryOp) (value : ValueId) : Builder ValueId := do
  let ty := (← Builder.ask (·.ty value)).unqualified
  match op with
  | .plus => return value
  | .minus => Builder.binary .sub (← Builder.constInt 0 ty) value
  | .logicalNot => Builder.icmp .eq value (← Builder.constInt 0 ty)
  | .bitNot => Builder.binary .xor value (← Builder.constInt (-1) ty)

def logicNames : LogicOp → String × String
  | .and => ("land.rhs", "land.end")
  | .or => ("lor.rhs", "lor.end")

def logicBranch (op : LogicOp) (lhs rhsBlock endBlock : ValueId) : Builder Unit := do
  let _ ← match op with
    | .and => Builder.branch lhs rhsBlock endBlock
    | .or => Builder.branch lhs endBlock rhsBlock

mutual
def expr : Expr → Lower ValueId
  | .int value note => withContext note.location (build (Builder.constInt value note.ty))
  | .char value note =>
    withContext note.location (build (Builder.constInt (Int64.ofNat value.toNat) note.ty))
  | .string value note => withContext note.location (build (Builder.constStr value))
  | .ident name note => withContext note.location do
    match (← get).module.symbols.lookup name with
    | some slot => return slot
    | none => fail (.undefinedVariable name note.location)
  | .binary op left right note => withContext note.location do
    match op with
    | .assign none =>
      let slot ← targetOf left.location (← expr left)
      let value ← expr right
      build (Builder.assign slot value)
    | .assign (some base) =>
      let slot ← targetOf left.location (← expr left)
      checkIntegerSlot left.location slot
      let value ← integerOf right.location (← expr right)
      let result ← build (Builder.binary (base.opcode left.ty right.ty) slot value)
      build (Builder.assign slot result)
    | .logic op =>
      let slot ← build (Builder.alloca .bool none)
      let lhs ← conditionOf left.location (← expr left)
      let _ ← build (Builder.store lhs slot)
      let rhsBlock ← newBlock (some (logicNames op).1)
      let endBlock ← newBlock (some (logicNames op).2)
      build (logicBranch op lhs rhsBlock endBlock)
      build (Builder.setInsertPoint rhsBlock)
      let rhs ← conditionOf right.location (← expr right)
      let _ ← build (Builder.store rhs slot)
      let _ ← build (Builder.jump endBlock)
      build (Builder.setInsertPoint endBlock)
      build (Builder.load slot)
    | .compare op =>
      let lhs ← integerOf left.location (← expr left)
      let rhs ← integerOf right.location (← expr right)
      build (Builder.icmp (op.predicate (left.ty.common right.ty)) lhs rhs)
    | .arith op =>
      let lhs ← integerOf left.location (← expr left)
      let rhs ← integerOf right.location (← expr right)
      build (Builder.binary (op.opcode left.ty right.ty) lhs rhs)
  | .unary op operand note => withContext note.location do
    let value ← integerOf operand.location (← expr operand)
    build (unary op value)
  | .call function arguments note => withContext note.location do
    match (← get).module.findFunction function with
    | none => fail (.undefinedFunction function note.location)
    | some callee =>
      let args ← exprs arguments
      build (Builder.call callee args)
termination_by structural e => e

def exprs : List Expr → Lower (List ValueId)
  | [] => return []
  | e :: rest => do
    let value ← expr e
    return value :: (← exprs rest)
termination_by structural es => es
end

end Lower
end Midend
