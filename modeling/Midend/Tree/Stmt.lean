import Midend.Tree.Expr

/-! Statements, declarations and whole programs of the source language. -/
namespace Midend

structure Decl where
  name : String
  ty : Ty
  initializer : Option Expr := none
  location : Location := .unknown
deriving Repr, Inhabited

inductive Stmt where
  | expr (value : Expr) (location : Location)
  | compound (body : List Stmt) (location : Location)
  | declare (decls : List Decl) (location : Location)
  | ifElse (condition : Expr) (thenStmt : Stmt) (elseStmt : Option Stmt) (location : Location)
  | whileDo (condition : Expr) (body : Stmt) (location : Location)
  | breakLoop (location : Location)
  | continueLoop (location : Location)
  | ret (value : Option Expr) (location : Location)
  | empty (location : Location)
deriving Repr, Inhabited

namespace Stmt

def location : Stmt → Location
  | .expr _ location | .compound _ location | .declare _ location | .ifElse _ _ _ location
  | .whileDo _ _ location | .breakLoop location | .continueLoop location | .ret _ location
  | .empty location => location

def locatedAt (location : Location) : Stmt → Stmt
  | .expr value _ => .expr value location
  | .compound body _ => .compound body location
  | .declare decls _ => .declare decls location
  | .ifElse condition thenStmt elseStmt _ => .ifElse condition thenStmt elseStmt location
  | .whileDo condition body _ => .whileDo condition body location
  | .breakLoop _ => .breakLoop location
  | .continueLoop _ => .continueLoop location
  | .ret value _ => .ret value location
  | .empty _ => .empty location

def jumps : Stmt → Bool
  | .ret _ _ | .breakLoop _ | .continueLoop _ => true
  | _ => false

def ofVar (name : String) (ty : Ty) (initializer : Option Expr) : Stmt :=
  .declare [{ name, ty, initializer }] .unknown

end Stmt

structure Param where
  name : String
  ty : Ty
  location : Location := .unknown
deriving DecidableEq, Repr, Inhabited

structure FuncDef where
  name : String
  returnType : Ty
  params : List Param
  body : Stmt
  location : Location := .unknown
deriving Repr, Inhabited

def FuncDef.ty (f : FuncDef) : Ty := .func (f.params.map (·.ty)) f.returnType

inductive Item where
  | func (f : FuncDef)
  | global (d : Decl)
deriving Repr, Inhabited

structure Program where
  items : List Item := []
deriving Repr, Inhabited

end Midend
