import Midend.Lower.Stmt

/-! Lowering of whole programs. A lowered function has an entry block with all its stack
slots, a body, and one exit block with its only return. An item with a mistake is
dropped, and the next one is lowered. -/
namespace Midend

def Expr.fold? : Expr → Option Int64
  | .int value _ => some value
  | .char value _ => some (Int64.ofNat value.toNat)
  | .unary op operand _ => do
    let value ← operand.fold?
    match op with
    | .plus => return value
    | .minus => return -value
    | .bitNot => return ~~~value
    | .logicalNot => return if value = 0 then 1 else 0
  | _ => none

namespace Lower

def paramSlot (param : Param) (arg : ValueId) : Lower Unit := do
  let slot ← build (Builder.alloca param.ty (some (param.name ++ ".addr")))
  let _ ← build (Builder.store arg slot)
  build (Builder.declare param.name slot)

def returnSlot (ty : Ty) : Lower (Option ValueId) := do
  if ty.isVoid then return none
  let slot ← build (Builder.alloca ty (some "retval"))
  build (Builder.setReturnSlot slot)
  return some slot

def outermost : Stmt → Lower Unit
  | .compound body _ => stmts false false body
  | body => stmt body

def functionBody (func : ValueId) (f : FuncDef) : Lower Unit := do
  let entry ← build (Builder.createBlock func (some "entry"))
  build (Builder.setInsertPoint entry)
  let args := (← build (Builder.ask (·.function func))).args
  (f.params.zip args).forM fun (param, arg) => paramSlot param arg
  let slot ← returnSlot f.returnType
  let exit ← build (Builder.createBlock func (some "func_exit"))
  build (Builder.setFunctionExit exit)
  let body ← build (Builder.createBlock func (some "body"))
  let _ ← build (Builder.jump body)
  build (Builder.setInsertPoint body)
  outermost f.body
  jumpUnlessTerminated exit
  build (Builder.moveBlockToEnd func exit)
  build (Builder.setInsertPoint exit)
  let result ← build (slot.mapM Builder.load)
  let _ ← build (Builder.ret result)

def function (f : FuncDef) : Lower Unit :=
  withContext f.location do
    if ((← get).module.findFunction f.name).isSome then
      fail (.functionRedefined f.name f.location)
    let func ← build (Builder.createFunction f.name f.ty (f.params.map (·.name)))
    build (Builder.declareGlobal f.name func)
    let result ← ExceptT.lift (withScope (functionBody func f)).run
    build Builder.endFunction
    modify fun s => { s with loops := [] }
    if let .error e := result then
      build (Builder.removeFunction func)
      throw e

def initialValue (e : Expr) : Lower (Option ValueId) := do
  match e with
  | .string value _ => some <$> build (Builder.constStr value)
  | e =>
    match e.fold? with
    | some value => some <$> build (Builder.constInt value e.ty)
    | none => return none

def global (d : Decl) : Lower Unit :=
  withContext d.location do
    let initial ← match d.initializer with
      | none => pure none
      | some e =>
        match ← initialValue e with
        | some value => pure (some value)
        | none => fail (.nonConstantInitializer d.name e.location)
    let global ← build (Builder.createGlobal d.name d.ty.unqualified initial)
    build (Builder.declareGlobal d.name global)

def item : Item → Lower Unit
  | .func f => function f
  | .global d => global d

end Lower

namespace Lowering

def start (name : String) : Lowering := { module := { name } }

def item (state : Lowering) (i : Item) : Except Fault Lowering :=
  (·.2) <$> (Lower.item i).run state

def program (state : Lowering) (p : Program) : Except Fault Lowering :=
  p.items.foldlM item state

def finish (state : Lowering) : Except LowerError Module :=
  let report := state.module.report
  if report.hasErrors then .error (.failed report.errorCount report.summary)
  else .ok state.module

end Lowering

def Program.lower (p : Program) (name : String) : Except Fault (Except LowerError Module) :=
  (·.finish) <$> (Lowering.start name).program p

end Midend
