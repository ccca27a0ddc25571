import Midend.Lower.Program

/-! Pieces of the lowering that several proofs speak of. -/
namespace Midend.Lower

def foldedValue (e : Expr) : Lower (Option ValueId) :=
  match e.fold? with
  | some value => some <$> build (Builder.constInt value e.ty)
  | none => return none

def defineGlobal (d : Decl) : Lower Unit := do
  let initial ← match d.initializer with
    | none => pure none
    | some e =>
      match ← initialValue e with
      | some value => pure (some value)
      | none => fail (.nonConstantInitializer d.name e.location)
  let global ← build (Builder.createGlobal d.name d.ty.unqualified initial)
  build (Builder.declareGlobal d.name global)

def keepResult (slot : Option ValueId) (result : ValueId) : Builder ValueId :=
  match slot with
  | some slot => Builder.assign slot result
  | none => Builder.valueOf result

def leaveBy (exit : Option ValueId) : Lower Unit := do
  if let some exit := exit then
    let _ ← build (Builder.jump exit)
  continueUnreachable

def settleFunction (func : ValueId) (result : Except LowerError Unit) : Lower Unit := do
  if let .error e := result then
    build (Builder.removeFunction func)
    throw e

end Midend.Lower
