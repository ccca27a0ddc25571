import Midend.Pass.Pipeline
import Midend.Module.Text

/-! Compilation from a program to optimised code. -/
namespace Midend

/-- Lowers a program and optimises the module. A fault is kept apart from a failure that
is owed to the program. -/
def Program.compile (p : Program) (name : String) (level : UInt8) :
    Except Fault (Except Failure Module) := do
  match ← p.lower name with
  | .error e => return .error e.toFailure
  | .ok m =>
    match m.optimize level with
    | .ok m => return .ok m
    | .error (.pass e) => return .error e.toFailure
    | .error (.fault f) => throw f

structure FunctionEdges where
  name : String
  blocks : List (ValueId × List ValueId × List ValueId)
deriving DecidableEq, Repr

def Module.edges (m : Module) : Except Fault (List FunctionEdges) :=
  m.functions.mapM fun func => do
    let blocks ← (← m.graph.functionBlocks func).mapM fun id => do
      let b ← m.graph.block id
      return (id, b.preds, b.succs)
    return ⟨(← m.graph.function func).name, blocks⟩

def Module.instructions (m : Module) :
    Except Fault (List (ValueId × Opcode × Option Location)) := do
  let functions ← m.functions.mapM fun func => do
    let blocks ← (← m.graph.functionBlocks func).mapM fun block => do
      (← m.graph.block block).insts.mapM fun id => do
        return (id, (← m.graph.inst id).opcode, (← m.graph.value id).location)
    return blocks.flatten
  return functions.flatten

end Midend
