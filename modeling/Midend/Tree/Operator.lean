/-! Operators of the source language, grouped by what they do with their operands. -/
namespace Midend

inductive ArithOp where
  | add
  | sub
  | mul
  | div
  | mod
  | bitAnd
  | bitOr
  | bitXor
  | leftShift
  | rightShift
deriving DecidableEq, Repr

inductive CompareOp where
  | equal
  | notEqual
  | less
  | greater
  | lessEqual
  | greaterEqual
deriving DecidableEq, Repr

inductive LogicOp where
  | and
  | or
deriving DecidableEq, Repr

/-- Binary operators. An assignment may first combine the old value with the new
one by an arithmetic operator. -/
inductive BinaryOp where
  | arith (op : ArithOp)
  | logic (op : LogicOp)
  | compare (op : CompareOp)
  | assign (base : Option ArithOp)
deriving DecidableEq, Repr

inductive UnaryOp where
  | plus
  | minus
  | bitNot
  | logicalNot
deriving DecidableEq, Repr

namespace ArithOp

def all : List ArithOp :=
  [.add, .sub, .mul, .div, .mod, .bitAnd, .bitOr, .bitXor, .leftShift, .rightShift]

def symbol : ArithOp → String
  | .add => "+"
  | .sub => "-"
  | .mul => "*"
  | .div => "/"
  | .mod => "%"
  | .bitAnd => "&"
  | .bitOr => "|"
  | .bitXor => "^"
  | .leftShift => "<<"
  | .rightShift => ">>"

def name : ArithOp → String
  | .add => "Add"
  | .sub => "Sub"
  | .mul => "Mul"
  | .div => "Div"
  | .mod => "Mod"
  | .bitAnd => "BitAnd"
  | .bitOr => "BitOr"
  | .bitXor => "BitXor"
  | .leftShift => "LeftShift"
  | .rightShift => "RightShift"

end ArithOp

namespace CompareOp

def all : List CompareOp := [.equal, .notEqual, .less, .greater, .lessEqual, .greaterEqual]

def symbol : CompareOp → String
  | .equal => "=="
  | .notEqual => "!="
  | .less => "<"
  | .greater => ">"
  | .lessEqual => "<="
  | .greaterEqual => ">="

def name : CompareOp → String
  | .equal => "Equal"
  | .notEqual => "NotEqual"
  | .less => "Less"
  | .greater => "Greater"
  | .lessEqual => "LessEqual"
  | .greaterEqual => "GreaterEqual"

end CompareOp

namespace LogicOp

def symbol : LogicOp → String
  | .and => "&&"
  | .or => "||"

def name : LogicOp → String
  | .and => "LogicalAnd"
  | .or => "LogicalOr"

end LogicOp

namespace BinaryOp

def isAssignment : BinaryOp → Bool
  | .assign _ => true
  | _ => false

def isComparison : BinaryOp → Bool
  | .compare _ => true
  | _ => false

def isLogical : BinaryOp → Bool
  | .logic _ => true
  | _ => false

def compoundBase : BinaryOp → Option ArithOp
  | .assign base => base
  | _ => none

def all : List BinaryOp :=
  ArithOp.all.map .arith ++ [.logic .and, .logic .or] ++ CompareOp.all.map .compare ++
    .assign none :: ArithOp.all.map fun op => .assign (some op)

def symbol : BinaryOp → String
  | .arith op => op.symbol
  | .logic op => op.symbol
  | .compare op => op.symbol
  | .assign none => "="
  | .assign (some op) => op.symbol ++ "="

def name : BinaryOp → String
  | .arith op => op.name
  | .logic op => op.name
  | .compare op => op.name
  | .assign none => "Assign"
  | .assign (some op) => op.name ++ "Assign"

def ofName? (name : String) : Option BinaryOp := all.find? (·.name == name)

@[simp]
theorem ofName?_name (op : BinaryOp) : ofName? op.name = some op := by
  rcases op with op | op | op | (_ | op)
  · cases op <;> decide
  · cases op <;> decide
  · cases op <;> decide
  · decide
  · cases op <;> decide

end BinaryOp

namespace UnaryOp

def all : List UnaryOp := [.plus, .minus, .bitNot, .logicalNot]

def symbol : UnaryOp → String
  | .plus => "+"
  | .minus => "-"
  | .bitNot => "~"
  | .logicalNot => "!"

def name : UnaryOp → String
  | .plus => "Plus"
  | .minus => "Minus"
  | .bitNot => "BitNot"
  | .logicalNot => "LogicalNot"

def ofName? (name : String) : Option UnaryOp := all.find? (·.name == name)

@[simp]
theorem ofName?_name (op : UnaryOp) : ofName? op.name = some op := by
  cases op <;> decide

end UnaryOp
end Midend
