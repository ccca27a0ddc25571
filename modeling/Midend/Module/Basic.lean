import Midend.Diagnostic
import Midend.Scope
import Midend.Graph.Layout

/-! A module: the graph with its functions and globals, and the state of the builder
that fills it. -/
namespace Midend

structure InsertPoint where
  block : ValueId
  index : Nat
deriving DecidableEq, Repr

namespace InsertPoint

def indexBound : Nat := UInt64.size

def next (point : InsertPoint) : Except Fault InsertPoint :=
  if point.index + 1 < indexBound then .ok { point with index := point.index + 1 }
  else .error .positionOverflow

end InsertPoint

structure FunctionState where
  function : ValueId
  entry : ValueId
  exit : Option ValueId := none
  returnSlot : Option ValueId := none
deriving DecidableEq, Repr

structure Module where
  name : String
  graph : Graph := {}
  functions : List ValueId := []
  globals : List ValueId := []
  symbols : ScopeTable ValueId := {}
  contexts : List Location := []
  insertPoint : Option InsertPoint := none
  current : Option FunctionState := none
  report : Report := {}
deriving Repr, Inhabited

abbrev Builder := StateT Module (Except Fault)

namespace Module

def findFunction (m : Module) (name : String) : Option ValueId :=
  m.functions.find? fun id =>
    match m.graph.kind? id with
    | some (.function f) => f.name == name
    | _ => false

def findGlobal (m : Module) (name : String) : Option ValueId :=
  m.globals.find? fun id =>
    match m.graph.kind? id with
    | some (.global global) => global == name
    | _ => false

def context? (m : Module) : Option Location := m.contexts.head?

def insertBlock? (m : Module) : Option ValueId := m.insertPoint.map (·.block)

def isTerminated (m : Module) : Except Fault Bool :=
  match m.insertPoint with
  | some point => Option.isSome <$> m.graph.terminator? point.block
  | none => return false

def hasErrors (m : Module) : Bool := m.report.hasErrors

end Module

namespace Builder

def fault {α : Type} (f : Fault) : Builder α := StateT.lift (.error f)

def ensure (condition : Bool) (f : Fault) : Builder Unit :=
  if condition then pure () else fault f

def ask {α : Type} (read : Graph → Except Fault α) : Builder α := do
  StateT.lift (read (← get).graph)

def change (f : Graph → Except Fault Graph) : Builder Unit := do
  let m ← get
  let graph ← StateT.lift (f m.graph)
  set { m with graph }

def step {α : Type} (f : Graph → Except Fault (α × Graph)) : Builder α := do
  let m ← get
  let (result, graph) ← StateT.lift (f m.graph)
  set { m with graph }
  return result

def addValue (kind : Kind) (ty : Ty) (operandLimit : Option Nat) : Builder ValueId :=
  step fun g => .ok (g.add kind ty operandLimit)

def addOperand (user target : ValueId) : Builder Unit := do
  let _ ← step (·.addOperand user (some target))

def pushScope : Builder Unit := modify fun m => { m with symbols := m.symbols.push }

def popScope : Builder Unit := modify fun m => { m with symbols := m.symbols.pop }

def declare (name : String) (value : ValueId) : Builder Unit :=
  modify fun m => { m with symbols := m.symbols.insert name value }

def declareGlobal (name : String) (value : ValueId) : Builder Unit :=
  modify fun m => { m with symbols := m.symbols.insertGlobal name value }

def pushContext (location : Location) : Builder Unit :=
  modify fun m => { m with contexts := location :: m.contexts }

def popContext : Builder Unit := modify fun m => { m with contexts := m.contexts.tail }

def report (severity : Severity) (message : String) (identifier : Option String) :
    Builder Unit :=
  modify fun m =>
    let location := m.context?.getD .unknown
    { m with report := m.report.add { severity, message, location, identifier } }

def reportError (message : String) (identifier : Option String) : Builder Unit :=
  report .error message identifier

def reportWarning (message : String) : Builder Unit := report .warning message none

def setFunctionExit (block : ValueId) : Builder Unit :=
  modify fun m => { m with current := m.current.map fun s => { s with exit := some block } }

def setReturnSlot (slot : ValueId) : Builder Unit :=
  modify fun m => { m with current := m.current.map fun s => { s with returnSlot := some slot } }

def endFunction : Builder Unit := modify fun m => { m with current := none, insertPoint := none }

def dropBlock (block : ValueId) : Builder Unit := do
  (← ask (·.block block)).insts.forM fun inst => change (·.dropOperands inst)
  change (·.dropOperands block)

/-- Takes a function with its blocks and instructions out of the module: nothing in the
module refers to them any longer. -/
def removeFunction (func : ValueId) : Builder Unit := do
  (← ask (·.functionBlocks func)).forM dropBlock
  change (·.dropOperands func)
  change (·.removeFromUsers func)
  let name := (← ask (·.function func)).name
  modify fun m =>
    let symbols := if m.symbols.lookup name = some func then m.symbols.remove name else m.symbols
    let m := { m with symbols, functions := m.functions.filter (· ≠ func) }
    if m.current.any (·.function = func) then { m with current := none, insertPoint := none }
    else m

end Builder
end Midend
