import Midend.Location
import Midend.Graph.Fault

/-! The graph of values. A value that refers to others owns a list of operand slots.
Each slot is also entered in the use list of the value that it points at, and every
operation that redirects a slot keeps the two directions in step. -/
namespace Midend

structure Use where
  value : Option ValueId
  user : ValueId
deriving DecidableEq, Repr

structure Value where
  kind : Kind
  ty : Ty
  location : Option Location := none
  uses : List UseId := []
  operands : List UseId := []
  operandLimit : Option Nat
deriving DecidableEq, Repr

structure Graph where
  values : Array Value := #[]
  uses : Array Use := #[]
deriving DecidableEq, Repr, Inhabited

namespace Graph

def value (g : Graph) (id : ValueId) : Except Fault Value :=
  match g.values[id.index]? with
  | some value => .ok value
  | none => .error (.outOfBounds g.values.size id.index)

def getUse (g : Graph) (id : UseId) : Except Fault Use :=
  match g.uses[id.index]? with
  | some slot => .ok slot
  | none => .error (.outOfBounds g.uses.size id.index)

def modify (g : Graph) (id : ValueId) (f : Value → Value) : Except Fault Graph :=
  if id.index < g.values.size then
    .ok { g with values := g.values.modify id.index f }
  else .error (.outOfBounds g.values.size id.index)

def kind (g : Graph) (id : ValueId) : Except Fault Kind := (·.kind) <$> g.value id

def ty (g : Graph) (id : ValueId) : Except Fault Ty := (·.ty) <$> g.value id

def kind? (g : Graph) (id : ValueId) : Option Kind := g.values[id.index]?.map (·.kind)

def add (g : Graph) (kind : Kind) (ty : Ty) (operandLimit : Option Nat) : ValueId × Graph :=
  (⟨g.values.size⟩, { g with values := g.values.push { kind, ty, operandLimit } })

theorem value_eq_ok_iff {g : Graph} {id : ValueId} {value : Value} :
    g.value id = .ok value ↔ g.values[id.index]? = some value := by
  unfold Graph.value
  split <;> simp_all

def unregister (g : Graph) (slot : UseId) : Option ValueId → Except Fault Graph
  | some value => g.modify value fun v => { v with uses := v.uses.filter (· ≠ slot) }
  | none => .ok g

def register (g : Graph) (slot : UseId) : Option ValueId → Except Fault Graph
  | some value => g.modify value fun v => { v with uses := v.uses ++ [slot] }
  | none => .ok g

/-- Points a slot at a value or at nothing. The slot leaves the use list of the value it
pointed at and goes to the end of the use list of the new one. -/
def setUse (g : Graph) (slot : UseId) (target : Option ValueId) : Except Fault Graph := do
  let old := (← g.getUse slot).value
  if old = target then return g
  let g ← (← g.unregister slot old).register slot target
  return { g with uses := g.uses.modify slot.index fun u => { u with value := target } }

def checkLimit (user : ValueId) (data : Value) : Except Fault Unit :=
  match data.operandLimit with
  | some limit =>
    if data.operands.length < limit then .ok () else .error (.operandLimit limit user)
  | none => .ok ()

def addOperand (g : Graph) (user : ValueId) (target : Option ValueId) :
    Except Fault (UseId × Graph) := do
  checkLimit user (← g.value user)
  let slot : UseId := ⟨g.uses.size⟩
  let g : Graph := { g with uses := g.uses.push ⟨none, user⟩ }
  let g ← g.modify user fun v => { v with operands := v.operands ++ [slot] }
  return (slot, ← g.setUse slot target)

def operand (g : Graph) (user : ValueId) (index : Nat) : Except Fault (Option ValueId) := do
  match (← g.value user).operands[index]? with
  | some slot => return (← g.getUse slot).value
  | none => return none

def operands (g : Graph) (user : ValueId) : Except Fault (List (Option ValueId)) := do
  (← g.value user).operands.mapM fun slot => (·.value) <$> g.getUse slot

def operandCount (g : Graph) (user : ValueId) : Except Fault Nat :=
  (·.operands.length) <$> g.value user

def liveOperands (g : Graph) (user : ValueId) : Except Fault (List ValueId) :=
  (·.filterMap id) <$> g.operands user

def setOperand (g : Graph) (user : ValueId) (index : Nat) (target : Option ValueId) :
    Except Fault Graph := do
  let slots := (← g.value user).operands
  match slots[index]? with
  | some slot => g.setUse slot target
  | none => throw (.outOfBounds slots.length index)

def users (g : Graph) (id : ValueId) : Except Fault (List ValueId) := do
  let owners ← (← g.value id).uses.mapM fun slot => (·.user) <$> g.getUse slot
  return owners.eraseDups

def useCount (g : Graph) (id : ValueId) : Except Fault Nat := (·.uses.length) <$> g.value id

def replaceBy (g : Graph) (old new : ValueId) : Except Fault Graph := do
  if old = new then return g
  (← g.value old).uses.foldlM (fun g slot => g.setUse slot (some new)) g

def eraseSlots (g : Graph) (target : Option ValueId) :
    List UseId → Except Fault (List UseId × Graph)
  | [] => .ok ([], g)
  | slot :: rest => do
    if (← g.getUse slot).value = target then
      (← g.setUse slot none).eraseSlots target rest
    else
      let (kept, g) ← g.eraseSlots target rest
      return (slot :: kept, g)

/-- Takes from a value all slots that hold `target`. With nothing as `target` it takes
the empty ones. -/
def removeValue (g : Graph) (user : ValueId) (target : Option ValueId) :
    Except Fault Graph := do
  let (kept, g) ← g.eraseSlots target (← g.value user).operands
  g.modify user fun v => { v with operands := kept }

def removeFromUsers (g : Graph) (id : ValueId) : Except Fault Graph := do
  (← g.users id).foldlM (fun g user => g.removeValue user (some id)) g

def dropOperands (g : Graph) (user : ValueId) : Except Fault Graph := do
  let slots := (← g.value user).operands
  let g ← g.modify user fun v => { v with operands := [] }
  slots.foldlM (fun g slot => g.setUse slot none) g

end Graph
end Midend
