import Midend.Tree.Stmt

/-! Small programs to try the library with. -/
namespace Midend.Sample

private def place (line column : UInt32) : Location := ⟨"demo.rj", line, column⟩

private def intVar (name : String) : Expr := .ofName name .int32

private def byteVar (name : String) : Expr := .ofName name .uint8

private def arith (op : ArithOp) (left right : Expr) : Expr := .ofBinary (.arith op) left right

private def compare (op : CompareOp) (left right : Expr) : Expr :=
  .ofBinary (.compare op) left right

private def update (op : ArithOp) (target value : Expr) : Stmt :=
  .expr (.ofBinary (.assign (some op)) target value) .unknown

private def giveBack (value : Expr) : Stmt := .ret (some value) .unknown

private def block (body : List Stmt) : Stmt := .compound body .unknown

private def function (name : String) (params : List Param) (returnType : Ty) (body : List Stmt) :
    Item :=
  .func { name, returnType, params, body := block body }

def add : Item :=
  function "add" [{ name := "a", ty := .int32 }] .int32
    [(Stmt.ofVar "b" .int32 (some (.ofInt 1))).locatedAt (place 2 3),
     (giveBack (arith .add (intVar "a") (intVar "b"))).locatedAt (place 3 3)]

def abs : Item :=
  function "abs" [{ name := "x", ty := .int32 }] .int32
    [.ifElse (compare .less (intVar "x") (.ofInt 0))
      (block [giveBack (.ofUnary .minus (intVar "x"))])
      (some (block [giveBack (intVar "x")])) (place 2 3)]

def countDown : Item :=
  function "count" [{ name := "n", ty := .int32 }] .int32
    [.ofVar "steps" .int32 (some (.ofInt 0)),
     .whileDo (compare .greater (intVar "n") (.ofInt 0))
      (block
        [update .sub (intVar "n") (.ofInt 1),
         .ifElse (compare .equal (intVar "n") (.ofInt 10)) (.breakLoop .unknown) none .unknown,
         .ifElse (arith .bitAnd (intVar "n") (.ofInt 1)) (.continueLoop .unknown) none .unknown,
         update .add (intVar "steps") (.ofInt 1)])
      (place 3 3),
     giveBack (intVar "steps")]

def calls : List Item :=
  [.global { name := "base", ty := .int32, initializer := some (.ofInt 40) },
   function "upper" [{ name := "c", ty := .uint8 }] .uint8
    [giveBack (arith .sub (byteVar "c") (.ofChar 32))],
   function "main" [] .int32
    [giveBack (arith .add (intVar "base") (.ofCall "upper" [.ofChar 98] .uint8))]]

def all : List (String × Program) :=
  [("add", ⟨[add]⟩), ("abs", ⟨[abs]⟩), ("loop", ⟨[countDown]⟩), ("calls", ⟨calls⟩)]

def find? (name : String) : Option Program := all.lookup name

def names : String := String.intercalate ", " (all.map (·.1))

end Midend.Sample
