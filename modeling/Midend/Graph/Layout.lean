import Midend.Graph.Basic

/-! Functions, blocks and instructions in the graph. -/
namespace Midend.Graph

def block (g : Graph) (id : ValueId) : Except Fault Block := do
  match ← g.kind id with
  | .block b => return b
  | other => throw (.wrongKind id .block (some other))

def function (g : Graph) (id : ValueId) : Except Fault Func := do
  match ← g.kind id with
  | .function f => return f
  | other => throw (.wrongKind id .function (some other))

def inst (g : Graph) (id : ValueId) : Except Fault Inst := do
  match ← g.kind id with
  | .inst i => return i
  | other => throw (.wrongKind id .instruction (some other))

def setKind (g : Graph) (id : ValueId) (kind : Kind) : Except Fault Graph :=
  g.modify id fun v => { v with kind }

def modifyBlock (g : Graph) (id : ValueId) (f : Block → Block) : Except Fault Graph := do
  match ← g.kind id with
  | .block b => g.setKind id (.block (f b))
  | _ => throw (.wrongKind id .block none)

def modifyInst (g : Graph) (id : ValueId) (f : Inst → Inst) : Except Fault Graph := do
  match ← g.kind id with
  | .inst i => g.setKind id (.inst (f i))
  | _ => throw (.wrongKind id .instruction none)

def opcode? (g : Graph) (id : ValueId) : Option Opcode := (g.kind? id).bind Kind.opcode?

def isTerminator (g : Graph) (id : ValueId) : Bool := (g.opcode? id).any Opcode.isTerminator

def terminator? (g : Graph) (block : ValueId) : Except Fault (Option ValueId) := do
  return (← g.block block).insts.getLast?.filter g.isTerminator

def branchTargets (g : Graph) (inst : ValueId) : Except Fault (List ValueId) := do
  let operands ← g.operands inst
  match g.opcode? inst with
  | some .jmp => return operands.filterMap id
  | some .br => return (operands.drop 1).filterMap id
  | _ => return []

def targets (g : Graph) (block : ValueId) : Except Fault (List ValueId) := do
  match ← g.terminator? block with
  | some last => g.branchTargets last
  | none => return []

def linkBlocks (g : Graph) (source target : ValueId) : Except Fault Graph := do
  let g ← g.modifyBlock source fun b =>
    if target ∈ b.succs then b else { b with succs := b.succs ++ [target] }
  g.modifyBlock target fun b =>
    if source ∈ b.preds then b else { b with preds := b.preds ++ [source] }

def returnType (g : Graph) (func : ValueId) : Except Fault Ty :=
  (·.returnType?.getD .void) <$> g.ty func

def functionArg (g : Graph) (func : ValueId) (index : Nat) : Except Fault ValueId := do
  let args := (← g.function func).args
  match args[index]? with
  | some arg => return arg
  | none => throw (.outOfBounds args.length index)

def functionBlocks (g : Graph) (func : ValueId) : Except Fault (List ValueId) :=
  g.liveOperands func

def entryBlock (g : Graph) (func : ValueId) : Except Fault (Option ValueId) := g.operand func 0

def blockSlot (g : Graph) (func block : ValueId) : Except Fault (Option Nat) :=
  (·.findIdx? (· == some block)) <$> g.operands func

def setOperands (g : Graph) (user : ValueId) (targets : List (Option ValueId)) :
    Except Fault Graph :=
  targets.zipIdx.foldlM (fun g target => g.setOperand user target.2 target.1) g

/-- Moves a block to a position in the order of its function's blocks, or to the end if
there is no such position. The slots stay and are pointed at other blocks. -/
def moveBlock (g : Graph) (func block : ValueId) (position : Nat) : Except Fault Graph := do
  let blocks ← g.operands func
  match blocks.findIdx? (· == some block) with
  | none => return g
  | some index =>
    let others := blocks.eraseIdx index
    g.setOperands func (others.insertIdx (min position others.length) (some block))

end Midend.Graph
