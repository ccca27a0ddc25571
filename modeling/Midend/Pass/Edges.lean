import Midend.Graph.Layout

/-! Derived edges between the blocks of a function. They are computed from the
terminators, whatever they were before. -/
namespace Midend.Graph

def clearEdges (g : Graph) (block : ValueId) : Except Fault Graph :=
  g.modifyBlock block fun b => { b with preds := [], succs := [] }

def linkTargets (g : Graph) (block : ValueId) : Except Fault Graph := do
  (← g.targets block).foldlM (fun g target => g.linkBlocks block target) g

def computeEdges (g : Graph) (func : ValueId) : Except Fault Graph := do
  let blocks ← g.functionBlocks func
  let g ← blocks.foldlM clearEdges g
  blocks.foldlM linkTargets g

end Midend.Graph
