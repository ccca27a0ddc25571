import Midend.Graph.Basic

/-! A check that operand slots and use lists agree. -/
namespace Midend

inductive Disagreement where
  | slotOwnedBy (id owner : ValueId)
  | notRegistered (id target : ValueId)
  | staleUse (id : ValueId)
  | useWithoutSlot (id : ValueId)
deriving DecidableEq, Repr

def Disagreement.message : Disagreement → String
  | .slotOwnedBy id owner => "operand slot of " ++ id.text ++ " owned by " ++ owner.text
  | .notRegistered id target => "use " ++ id.text ++ " -> " ++ target.text ++ " not registered"
  | .staleUse id => "stale reverse use on " ++ id.text
  | .useWithoutSlot id => "reverse use on " ++ id.text ++ " has no operand slot"

namespace Graph

/-- Every slot of a value must be its own, and must be in the use list of the value that
it points at. -/
def checkSlot (g : Graph) (id : ValueId) (slot : UseId) : Except Fault (Option Disagreement) := do
  let data ← g.getUse slot
  if data.user ≠ id then return some (.slotOwnedBy id data.user)
  match data.value with
  | none => return none
  | some target =>
    if slot ∈ (← g.value target).uses then return none
    return some (.notRegistered id target)

def checkUse (g : Graph) (id : ValueId) (slot : UseId) : Except Fault (Option Disagreement) := do
  let data ← g.getUse slot
  if data.value ≠ some id then return some (.staleUse id)
  if slot ∈ (← g.value data.user).operands then return none
  return some (.useWithoutSlot id)

def checkValue (g : Graph) (id : ValueId) : Except Fault (Option Disagreement) := do
  let data ← g.value id
  match ← data.operands.findSomeM? (g.checkSlot id) with
  | some found => return some found
  | none => data.uses.findSomeM? (g.checkUse id)

def check (g : Graph) : Except Fault (Option Disagreement) :=
  (List.range g.values.size).findSomeM? fun index => g.checkValue ⟨index⟩

end Graph
end Midend
