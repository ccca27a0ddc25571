import Midend.Graph.Kind
import Midend.Ty

/-! Misuse of the graph or of the code builder. A fault ends the operation in which it
arises and gives no result. -/
namespace Midend

inductive Role where
  | block
  | function
  | instruction
deriving DecidableEq, Repr

def Role.text : Role → String
  | .block => "a block"
  | .function => "a function"
  | .instruction => "an instruction"

inductive Fault where
  | outOfBounds (length index : Nat)
  | insertPastEnd (index length : Nat)
  | positionOverflow
  | operandLimit (limit : Nat) (user : ValueId)
  | wrongKind (id : ValueId) (role : Role) (found : Option Kind)
  | notFunctionType (name : String)
  | argumentNames (name : String) (expected given : Nat)
  | insertPointNotBlock
  | noInsertPoint (op : Opcode)
  | secondTerminator (first : Option Opcode)
  | afterTerminator (op : Opcode)
  | allocaOfVoid
  | allocaOutsideFunction
  | loadThrough (ty : Ty)
  | storeThrough (ty : Ty)
  | assignTo (ty : Ty)
  | notCast (op : Opcode)
  | notBinary (op : Opcode)
  | operandsNotIntegers (lhs rhs : Ty)
  | callOf (ty : Ty)
  | argumentCount (expected given : Nat)
  | jumpTarget
  | branchCondition (ty : Ty)
  | statementOutsideFunction
  | returnOutsideFunction
deriving DecidableEq, Repr

namespace Fault

def unequal (about : String) (left right : Nat) : String :=
  "assertion `left == right` failed: " ++ about ++ "\n  left: " ++ toString left ++
    "\n right: " ++ toString right

def message : Fault → String
  | .outOfBounds length index =>
    "index out of bounds: the len is " ++ toString length ++ " but the index is " ++ toString index
  | .insertPastEnd index length =>
    "insertion index (is " ++ toString index ++ ") should be <= len (is " ++ toString length ++ ")"
  | .positionOverflow => "attempt to add with overflow"
  | .operandLimit limit user =>
    "operand limit of " ++ toString limit ++ " exceeded on " ++ user.text
  | .wrongKind id role none => id.text ++ " is not " ++ role.text
  | .wrongKind id role (some kind) =>
    id.text ++ " is not " ++ role.text ++ ": " ++ kind.description
  | .notFunctionType name => "function @" ++ name ++ " needs a function type"
  | .argumentNames name expected given =>
    unequal ("argument names of @" ++ name ++ " do not match its type") expected given
  | .insertPointNotBlock => "insertion point must be a block"
  | .noInsertPoint op => "no insertion point for " ++ op.mnemonic
  | .secondTerminator first => "block already ends in " ++ (first.map Opcode.mnemonic).getD "?"
  | .afterTerminator op => op.mnemonic ++ " inserted after the terminator"
  | .allocaOfVoid => "alloca of void"
  | .allocaOutsideFunction => "alloca outside of a function"
  | .loadThrough ty => "load through non-pointer " ++ ty.text
  | .storeThrough ty => "store through non-pointer " ++ ty.text
  | .assignTo ty => "assignment to non-pointer " ++ ty.text
  | .notCast op => op.mnemonic ++ " is not a cast"
  | .notBinary op => op.mnemonic ++ " is not a binary operator"
  | .operandsNotIntegers lhs rhs =>
    "binary operands must be integers, got " ++ lhs.text ++ " and " ++ rhs.text
  | .callOf ty => "call of non-function " ++ ty.text
  | .argumentCount expected given => unequal "argument count mismatch" expected given
  | .jumpTarget => "jump target must be a block"
  | .branchCondition ty => "branch condition must be i1, got " ++ ty.text
  | .statementOutsideFunction => "statement lowered outside of a function"
  | .returnOutsideFunction => "return lowered outside of a function"

end Fault
end Midend
