import Midend.Proofs.Meaning.Integers
import Midend.Lower.Program

/-! The meaning of call-free programs over integers, read off the source. Names are resolved in
the order of the text: a scope is opened by a compound statement and by nothing else, and a
name is bound after its initial value was computed. Every declaration has a slot of its own,
which holds nothing before the declaration was reached. -/
namespace Midend

inductive Place where
  | slot (number : Nat)
  | global (name : String)
deriving DecidableEq, Repr

structure Variable where
  place : Place
  ty : Ty
deriving DecidableEq, Repr

structure Scope where
  table : ScopeTable Variable
  declared : Nat
deriving Repr

namespace Scope

def lookup (scope : Scope) (name : String) : Option Variable := scope.table.lookup name

def declare (scope : Scope) (name : String) (ty : Ty) : Scope where
  table := scope.table.insert name ⟨.slot scope.declared, ty⟩
  declared := scope.declared + 1

def push (scope : Scope) : Scope := { scope with table := scope.table.push }

def leave (scope inner : Scope) : Scope := { scope with declared := inner.declared }

end Scope

abbrev Store := Place → Option Int

def Store.set (store : Store) (place : Place) (x : Int) : Store :=
  fun other => if other = place then some x else store other

def Expr.eval (scope : Scope) (store : Store) : Expr → Option Int
  | .int value note => some (note.ty.wrap value.toInt)
  | .char value note => some (note.ty.wrap value.toNat)
  | .ident name _ => (scope.lookup name).bind fun found => store found.place
  | .unary op operand _ => (operand.eval scope store).map (op.eval operand.ty)
  | .binary (.arith op) left right _ => do
    op.eval left.ty right.ty (← left.eval scope store) (← right.eval scope store)
  | .binary (.compare op) left right _ => do
    return truth (op.eval left.ty right.ty (← left.eval scope store) (← right.eval scope store))
  | .binary (.logic .and) left right _ => do
    if (← left.eval scope store) = 0 then return 0
    return truth ((← right.eval scope store) != 0)
  | .binary (.logic .or) left right _ => do
    if (← left.eval scope store) ≠ 0 then return 1
    return truth ((← right.eval scope store) != 0)
  | _ => none

def Expr.combined (scope : Scope) (store : Store) (base : Option ArithOp) (place : Place) (targetTy : Ty)
    (value : Expr) : Option Int :=
  (value.eval scope store).bind fun y =>
    match base with
    | none => some y
    | some op => (store place).bind fun old => op.eval targetTy value.ty old y

def Expr.assigned (scope : Scope) (store : Store) (base : Option ArithOp) (target value : Expr) :
    Option Store :=
  match target with
  | .ident name note => (scope.lookup name).bind fun found =>
    (Expr.combined scope store base found.place note.ty value).map fun x => store.set found.place (found.ty.wrap x)
  | _ => none

inductive Completion where
  | normal
  | broken
  | continued
  | returned (value : Option Int)

inductive Ending where
  | done (how : Completion) (store : Store)
  | stuck
  | unfinished

namespace Ending

def ofStore : Option Store → Ending
  | some store => .done .normal store
  | none => .stuck

def andThen (first : Ending) (next : Store → Ending) : Ending :=
  match first with
  | .done .normal store => next store
  | other => other

def choose (condition : Option Int) (thenEnding elseEnding : Ending) : Ending :=
  match condition with
  | none => .stuck
  | some x => if x = 0 then elseEnding else thenEnding

def again (body : Ending) (next : Store → Ending) : Ending :=
  match body with
  | .done .normal store | .done .continued store => next store
  | .done .broken store => .done .normal store
  | other => other

def loop (condition : Store → Option Int) (body : Store → Ending) : Nat → Store → Ending
  | 0, _ => .unfinished
  | rounds + 1, store =>
    .choose (condition store) ((body store).again (loop condition body rounds)) (.done .normal store)

end Ending

def declareAll (scope : Scope) (store : Store) : List Decl → Option Store
  | [] => some store
  | d :: rest => do
    let store ← match d.initializer with
      | none => some store
      | some e => (e.eval scope store).map fun x => store.set (.slot scope.declared) (d.ty.wrap x)
    declareAll (scope.declare d.name d.ty) store rest

namespace Stmt

mutual
def after (scope : Scope) : Stmt → Scope
  | .declare decls _ => decls.foldl (fun scope d => scope.declare d.name d.ty) scope
  | .compound body _ => scope.leave (afterAll scope.push body)
  | .ifElse _ thenStmt none _ => thenStmt.after scope
  | .ifElse _ thenStmt (some elseStmt) _ => elseStmt.after (thenStmt.after scope)
  | .whileDo _ body _ => body.after scope
  | _ => scope
termination_by structural s => s

def afterAll (scope : Scope) : List Stmt → Scope
  | [] => scope
  | s :: rest => afterAll (s.after scope) rest
termination_by structural ss => ss
end

def returns (result : Ty) (scope : Scope) (store : Store) : Option Expr → Ending
  | none => .done (.returned none) store
  | some e =>
    match e.eval scope store with
    | none => .stuck
    | some x => .done (.returned (if result.isVoid then none else some (result.wrap x))) store

mutual
def exec (rounds : Nat) (result : Ty) (scope : Scope) (store : Store) : Stmt → Ending
  | .expr (.binary (.assign base) target value _) _ =>
    .ofStore (Expr.assigned scope store base target value)
  | .expr (.ident _ _) _ => .done .normal store
  | .expr e _ => .ofStore ((e.eval scope store).map fun _ => store)
  | .compound body _ => execAll rounds result scope.push store body
  | .declare decls _ => .ofStore (declareAll scope store decls)
  | .ifElse condition thenStmt none _ =>
    .choose (condition.eval scope store) (exec rounds result scope store thenStmt) (.done .normal store)
  | .ifElse condition thenStmt (some elseStmt) _ =>
    .choose (condition.eval scope store) (exec rounds result scope store thenStmt)
      (exec rounds result (thenStmt.after scope) store elseStmt)
  | .whileDo condition body _ =>
    .loop (condition.eval scope) (fun store => exec rounds result scope store body) rounds store
  | .breakLoop _ => .done .broken store
  | .continueLoop _ => .done .continued store
  | .ret value _ => returns result scope store value
  | .empty _ => .done .normal store
termination_by structural s => s

def execAll (rounds : Nat) (result : Ty) (scope : Scope) (store : Store) : List Stmt → Ending
  | [] => .done .normal store
  | s :: rest =>
    (exec rounds result scope store s).andThen fun store =>
      execAll rounds result (s.after scope) store rest
termination_by structural ss => ss
end

def execBody (rounds : Nat) (result : Ty) (scope : Scope) (store : Store) : Stmt → Ending
  | .compound body _ => execAll rounds result scope store body
  | body => exec rounds result scope store body

end Stmt

/-- The end of a function. One that returns a value must come to a return with a value. -/
def Ending.answer (result : Ty) : Ending → Ending
  | .done (.returned (some x)) store => .done (.returned (some x)) store
  | .done .normal store | .done (.returned none) store =>
    if result.isVoid then .done (.returned none) store else .stuck
  | .done _ _ => .stuck
  | other => other

def Store.start (args : List Int) (globals : String → Option Int) : Store
  | .slot number => args[number]?
  | .global name => globals name

namespace FuncDef
variable (f : FuncDef)

/-- The names in the body of a function: those outside it, its own and its parameters. -/
def scope (names : Bindings Variable) : Scope :=
  f.params.foldl (fun scope param => scope.declare param.name param.ty)
    ⟨⟨[[]], (f.name, ⟨.global f.name, f.ty⟩) :: names⟩, 0⟩

def call (names : Bindings Variable) (rounds : Nat) (args : List Int) (globals : String → Option Int) :
    Ending :=
  (f.body.execBody rounds f.returnType (f.scope names) (.start args globals)).answer f.returnType

variable (names : Bindings Variable) (args : List Int) (globals : String → Option Int)

def Returns (value : Option Int) (globals' : String → Option Int) : Prop :=
  ∃ rounds store, f.call names rounds args globals = .done (.returned value) store ∧
    globals' = fun name => store (.global name)

def Sticks : Prop := ∃ rounds, f.call names rounds args globals = .stuck

def Diverges : Prop := ∀ rounds, f.call names rounds args globals = .unfinished

end FuncDef

/-- Whether an expression computes with integers only, without calls and assignments, and is
annotated with the types of its parts. -/
def Expr.integral (scope : Scope) : Expr → Bool
  | .int _ note | .char _ note => note.ty.isInteger
  | .ident name note =>
    (scope.lookup name).any fun found => found.ty.isInteger && decide (note.ty.Alike found.ty)
  | .unary op operand note =>
    operand.integral scope && decide (note.ty.Alike (unaryTy op operand.ty))
  | .binary (.assign _) _ _ _ => false
  | .binary op left right note =>
    left.integral scope && right.integral scope &&
      decide (note.ty.Alike (binaryTy op left.ty right.ty))
  | _ => false

def integralDecls (scope : Scope) : List Decl → Bool
  | [] => true
  | d :: rest =>
    d.ty.isInteger && d.initializer.all (·.integral scope) &&
      integralDecls (scope.declare d.name d.ty) rest

namespace Stmt

mutual
/-- Whether a statement computes with integers only and assigns only in expression statements. -/
def integral (scope : Scope) : Stmt → Bool
  | .expr (.binary (.assign _) target value _) _ => target.integral scope && value.integral scope
  | .expr e _ => e.integral scope
  | .compound body _ => integralAll scope.push body
  | .declare decls _ => integralDecls scope decls
  | .ifElse condition thenStmt none _ => condition.integral scope && integral scope thenStmt
  | .ifElse condition thenStmt (some elseStmt) _ =>
    condition.integral scope && integral scope thenStmt && integral (thenStmt.after scope) elseStmt
  | .whileDo condition body _ => condition.integral scope && integral scope body
  | .ret value _ => value.all (·.integral scope)
  | .breakLoop _ | .continueLoop _ | .empty _ => true
termination_by structural s => s

def integralAll (scope : Scope) : List Stmt → Bool
  | [] => true
  | s :: rest => integral scope s && integralAll (s.after scope) rest
termination_by structural ss => ss
end

def integralBody (scope : Scope) : Stmt → Bool
  | .compound body _ => integralAll scope body
  | body => integral scope body

end Stmt

/-- Whether a function computes with integers only. It may return nothing. -/
def FuncDef.integral (f : FuncDef) (names : Bindings Variable) : Bool :=
  f.params.all (·.ty.isInteger) && (f.returnType.isInteger || f.returnType.isVoid) &&
    f.body.integralBody (f.scope names)

end Midend
