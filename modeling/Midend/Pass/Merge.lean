import Midend.Graph.Layout

/-! Merging of blocks. A block that is entered only by an unconditional jump from one
other block is appended to that block, and a block that cannot be reached from the
entry is removed. The derived edges are relied on and are kept up. -/
namespace Midend.Graph

/-- Takes blocks from a stack and puts those of their successors on it that have not been
seen. Every block is taken once at most, so fuel for each value of the graph and one
more is enough. -/
def explore (g : Graph) : (fuel : Nat) → (stack seen : List ValueId) → Except Fault (List ValueId)
  | 0, _, seen | _, [], seen => return seen
  | fuel + 1, block :: stack, seen => do
    let fresh := ((← g.block block).succs.filter (· ∉ seen)).eraseDups
    g.explore fuel (fresh ++ stack) (fresh ++ seen)

def reachable (g : Graph) (entry : ValueId) : Except Fault (List ValueId) :=
  g.explore (g.values.size + 1) [entry] [entry]

def unlist (g : Graph) (func block : ValueId) : Except Fault Graph := do
  match ← g.blockSlot func block with
  | some slot => g.setOperand func slot none
  | none => return g

def dropEdges (g : Graph) (block : ValueId) : Except Fault Graph := do
  let succs := match g.kind? block with
    | some (.block b) => b.succs
    | _ => []
  let g ← g.modifyBlock block fun b => { b with succs := [] }
  succs.foldlM
    (fun g succ => g.modifyBlock succ fun b => { b with preds := b.preds.filter (· ≠ block) }) g

def dropInsts (g : Graph) (block : ValueId) : Except Fault Graph := do
  let insts := (← g.block block).insts
  let g ← g.modifyBlock block fun b => { b with insts := [] }
  insts.foldlM dropOperands g

def removeBlock (g : Graph) (func block : ValueId) : Except Fault Graph := do
  let g ← g.dropEdges block
  let g ← g.unlist func block
  let g ← g.dropInsts block
  let g ← g.dropOperands block
  g.removeFromUsers block

/-- Whether a block can be appended to its only predecessor: control goes from the
predecessor to this block and nowhere else. -/
def canMerge (g : Graph) (pred block : ValueId) : Except Fault Bool := do
  if pred = block then return false
  if (← g.block pred).succs ≠ [block] then return false
  return (← g.terminator? pred).bind g.opcode? = some .jmp

def dropTerminator (g : Graph) (block : ValueId) : Except Fault Graph := do
  match ← g.terminator? block with
  | some last =>
    let g ← g.dropOperands last
    g.modifyBlock block fun b => { b with insts := b.insts.dropLast }
  | none => return g

def moveInsts (g : Graph) (pred block : ValueId) : Except Fault Graph := do
  let insts := (← g.block block).insts
  let g ← g.modifyBlock block fun b => { b with insts := [] }
  let g ← insts.foldlM (fun g inst => g.modifyInst inst fun i => { i with parent := pred }) g
  g.modifyBlock pred fun b => { b with insts := b.insts ++ insts }

def moveEdges (g : Graph) (pred block : ValueId) : Except Fault Graph := do
  let succs := (← g.block block).succs
  let g ← g.modifyBlock block fun b => { b with succs := [] }
  let g ← succs.foldlM
    (fun g succ => g.modifyBlock succ fun b =>
      { b with preds := (b.preds.map fun p => if p = block then pred else p).eraseDups }) g
  let g ← g.modifyBlock pred fun b => { b with succs }
  g.modifyBlock block fun b => { b with preds := [] }

def mergeInto (g : Graph) (func pred block : ValueId) : Except Fault Graph := do
  let g ← g.dropTerminator pred
  let g ← g.moveInsts pred block
  let g ← g.moveEdges pred block
  let g ← g.unlist func block
  let g ← g.dropOperands block
  g.replaceBy block pred

def mergeBlock (func entry : ValueId) (live : List ValueId) (state : Bool × Graph)
    (block : ValueId) : Except Fault (Bool × Graph) := do
  let (changed, g) := state
  if block = entry ∨ (← g.blockSlot func block).isNone then return (changed, g)
  if block ∉ live then return (true, ← g.removeBlock func block)
  match (← g.block block).preds with
  | [pred] =>
    if ← g.canMerge pred block then return (true, ← g.mergeInto func pred block)
    else return (changed, g)
  | _ => return (changed, g)

def tidyBlocks (g : Graph) (func entry : ValueId) : Except Fault Graph := do
  let g ← g.removeValue func none
  match ← g.blockSlot func entry with
  | some (_ + 1) => g.moveBlock func entry 0
  | _ => return g

def mergeRound (g : Graph) (func entry : ValueId) : Except Fault (Bool × Graph) := do
  let live ← g.reachable entry
  let (changed, g) ← (← g.functionBlocks func).foldlM (mergeBlock func entry live) (false, g)
  if changed then return (true, ← g.tidyBlocks func entry)
  else return (false, g)

def mergeRounds : (fuel : Nat) → (g : Graph) → (func entry : ValueId) →
    Except Fault (Bool × Graph)
  | 0, g, _, _ => return (false, g)
  | fuel + 1, g, func, entry => do
    match ← g.mergeRound func entry with
    | (false, g) => return (false, g)
    | (true, g) => return (true, (← mergeRounds fuel g func entry).2)

/-- Merges the blocks of a function as far as possible. Each round that changes something
takes slots from the function, so there is no need for more rounds than slots, and one
more. -/
def mergeBlocks (g : Graph) (func : ValueId) : Except Fault (Bool × Graph) := do
  match ← g.entryBlock func with
  | some entry => mergeRounds ((← g.operandCount func) + 1) g func entry
  | none => return (false, g)

end Midend.Graph
