import Midend.Pass.Basic

/-! The order in which passes run: every pass after those that it requires. -/
namespace Midend

structure Registry (σ : Type) where
  passes : List (Pass σ) := []

namespace Registry
variable {σ : Type}

def indexOf? (r : Registry σ) (name : String) : Option Nat :=
  r.passes.findIdx? (·.name == name)

def register (r : Registry σ) (pass : Pass σ) : Registry σ :=
  match r.indexOf? pass.name with
  | some index => ⟨r.passes.set index pass⟩
  | none => ⟨r.passes ++ [pass]⟩

def names (r : Registry σ) : List String := r.passes.map (·.name)

def enabled (r : Registry σ) (level : UInt8) : List Nat :=
  (r.passes.zipIdx.filter (·.1.level ≤ level)).map (·.2)

/-- A walk through the requirements: the passes that were entered and not left, and those
that were left, in the order in which they were. -/
structure Walk where
  entered : List Nat := []
  order : List Nat := []
deriving DecidableEq, Repr

/-- Enters a pass, goes through what it requires, and leaves it. Each pass is entered
once at most, so fuel for each registered pass is enough. -/
def visit (r : Registry σ) (fuel index : Nat) (walk : Walk) : Except PassError Walk :=
  match r.passes[index]? with
  | none => .ok walk
  | some pass =>
    if index ∈ walk.order then .ok walk
    else if index ∈ walk.entered then .error (.dependencyCycle pass.name)
    else
      match fuel with
      | 0 => .error (.dependencyCycle pass.name)
      | fuel + 1 => do
        let walk ← pass.requires.foldlM
          (fun walk name =>
            match r.indexOf? name with
            | none => .error (.missingPrerequisite pass.name name)
            | some required => r.visit fuel required walk)
          { walk with entered := index :: walk.entered }
        return { entered := walk.entered.erase index, order := walk.order ++ [index] }
termination_by structural fuel

def schedule (r : Registry σ) (roots : List Nat) : Except PassError (List Nat) := do
  let walk ← roots.foldlM (fun walk root => r.visit r.passes.length root walk) {}
  return walk.order

end Registry
end Midend
