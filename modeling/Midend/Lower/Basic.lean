import Midend.Lower.Error
import Midend.Module.Build

/-! The state of lowering. A mistake in the program ends the lowering of the item it
stands in and leaves the state as it is; a fault ends everything. -/
namespace Midend

structure LoopTargets where
  continueBlock : ValueId
  breakBlock : ValueId
deriving DecidableEq, Repr

structure Lowering where
  module : Module
  loops : List LoopTargets := []
deriving Repr, Inhabited

abbrev Lower := ExceptT LowerError (StateT Lowering (Except Fault))

namespace Lower
variable {α : Type}

def build (action : Builder α) : Lower α :=
  ExceptT.mk fun state => do
    let (result, module) ← action state.module
    return (.ok result, { state with module })

def fail (e : LowerError) : Lower α := do
  build (Builder.reportError e.message e.identifier?)
  throw e

/-- Does something between two changes of the state. The second change is made also when
a mistake was found. -/
def between (before after : Lowering → Lowering) (action : Lower α) : Lower α :=
  ExceptT.mk fun state => do
    let (result, state) ← action.run (before state)
    return (result, after state)

def withContext (location : Location) (action : Lower α) : Lower α :=
  between
    (fun s => { s with module.contexts := location :: s.module.contexts })
    (fun s => { s with module.contexts := s.module.contexts.tail }) action

def withScope (action : Lower α) : Lower α :=
  between
    (fun s => { s with module.symbols := s.module.symbols.push })
    (fun s => { s with module.symbols := s.module.symbols.pop }) action

def withLoop (targets : LoopTargets) (action : Lower α) : Lower α :=
  between
    (fun s => { s with loops := targets :: s.loops })
    (fun s => { s with loops := s.loops.tail }) action

def currentFunction : Lower ValueId := do
  match (← get).module.current with
  | some state => return state.function
  | none => build (Builder.fault .statementOutsideFunction)

def newBlock (name : Option String) : Lower ValueId := do
  let func ← currentFunction
  build (Builder.createBlock func name)

def continueUnreachable : Lower Unit := do
  let block ← newBlock none
  build (Builder.setInsertPoint block)

def jumpUnlessTerminated (target : ValueId) : Lower Unit := do
  let terminated ← build do StateT.lift (← get).isTerminated
  unless terminated do
    let _ ← build (Builder.jump target)

end Lower
end Midend
