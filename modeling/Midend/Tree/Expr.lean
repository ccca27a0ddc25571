import Midend.Location
import Midend.Ty
import Midend.Tree.Operator

/-! Expressions of the source language. Every node is annotated with its place and
with the type that was resolved for it. -/
namespace Midend

structure Note where
  location : Location
  ty : Ty
deriving DecidableEq, Repr, Inhabited

inductive Expr where
  | int (value : Int64) (note : Note)
  | char (value : UInt8) (note : Note)
  | string (value : String) (note : Note)
  | ident (name : String) (note : Note)
  | binary (op : BinaryOp) (left right : Expr) (note : Note)
  | unary (op : UnaryOp) (operand : Expr) (note : Note)
  | call (function : String) (arguments : List Expr) (note : Note)
deriving Repr, Inhabited

namespace Expr

def note : Expr → Note
  | .int _ note | .char _ note | .string _ note | .ident _ note | .binary _ _ _ note
  | .unary _ _ note | .call _ _ note => note

def location (e : Expr) : Location := e.note.location

def ty (e : Expr) : Ty := e.note.ty

def locatedAt (location : Location) : Expr → Expr
  | .int value note => .int value { note with location }
  | .char value note => .char value { note with location }
  | .string value note => .string value { note with location }
  | .ident name note => .ident name { note with location }
  | .binary op left right note => .binary op left right { note with location }
  | .unary op operand note => .unary op operand { note with location }
  | .call function arguments note => .call function arguments { note with location }

def intOf (value : Int64) (ty : Ty) : Expr := .int value ⟨.unknown, ty.constant⟩

def ofInt (value : Int64) : Expr := intOf value .int32

def ofChar (value : UInt8) : Expr := .char value ⟨.unknown, Ty.uint8.constant⟩

def ofString (value : String) : Expr := .string value ⟨.unknown, Ty.str.constant⟩

def ofName (name : String) (ty : Ty) : Expr := .ident name ⟨.unknown, ty⟩

/-- The type of a binary expression: a truth value for comparisons and logical
operators, the type of the target for assignments, the wider operand otherwise. -/
def binaryTy (op : BinaryOp) (left right : Ty) : Ty :=
  if op.isComparison || op.isLogical then .bool
  else if op.isAssignment then left.unqualified
  else left.common right

def ofBinary (op : BinaryOp) (left right : Expr) : Expr :=
  .binary op left right ⟨.unknown, binaryTy op left.ty right.ty⟩

def unaryTy (op : UnaryOp) (operand : Ty) : Ty :=
  match op with
  | .logicalNot => .bool
  | _ => operand.unqualified

def ofUnary (op : UnaryOp) (operand : Expr) : Expr :=
  .unary op operand ⟨.unknown, unaryTy op operand.ty⟩

def ofCall (function : String) (arguments : List Expr) (ty : Ty) : Expr :=
  .call function arguments ⟨.unknown, ty⟩

end Expr
end Midend
