import Midend.Failure
import Midend.Pass.Edges
import Midend.Pass.Merge

/-! Passes over functions. A pass works on the graph, one function at a time, and may
keep something in a memory that all passes of a pipeline share. -/
namespace Midend

structure Pass (σ : Type) where
  name : String
  preserves : Bool
  level : UInt8
  requires : List String := []
  run : ValueId → Graph × σ → Except Fault (Bool × Graph × σ)

namespace Pass
variable {σ : Type}

def requiring (pass : Pass σ) (name : String) : Pass σ :=
  if name ∈ pass.requires then pass else { pass with requires := pass.requires ++ [name] }

def blockCalculate : Pass σ where
  name := "BlockCalculate"
  preserves := true
  level := 0
  run func state := do
    return (false, ← state.1.computeEdges func, state.2)

def blockMerge : Pass σ where
  name := "BlockMerge"
  preserves := false
  level := 1
  requires := ["BlockCalculate"]
  run func state := do
    let (changed, graph) ← state.1.mergeBlocks func
    return (changed, graph, state.2)

def builtin : List (Pass σ) := [blockCalculate, blockMerge]

def description (pass : Pass σ) : String :=
  Describe.record "PassInfo" [("name", Text.quoted pass.name),
    ("preserves_analyses", if pass.preserves then "true" else "false"),
    ("min_opt_level", toString pass.level.toNat),
    ("requires", Describe.list (pass.requires.map Text.quoted))]

end Pass

inductive PassError where
  | missingPrerequisite (pass prerequisite : String)
  | dependencyCycle (pass : String)
  | unknownPass (name : String)
  | noModule
deriving DecidableEq, Repr

namespace PassError

def message : PassError → String
  | .missingPrerequisite pass prerequisite =>
    "Pass '" ++ pass ++ "' requires '" ++ prerequisite ++ "', which is not registered"
  | .dependencyCycle pass => "Dependency cycle through pass '" ++ pass ++ "'"
  | .unknownPass name => "Unknown pass '" ++ name ++ "'"
  | .noModule => "No module set on the pass manager"

def toFailure (e : PassError) : Failure := .pass e.message

end PassError
end Midend
