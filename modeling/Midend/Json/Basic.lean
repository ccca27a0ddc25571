/-! JSON values. An object keeps its fields in written order, repeated names
included, so that a reader can tell a document with a repeated field from one
without. -/
namespace Midend

inductive Json where
  | null
  | bool (value : Bool)
  | int (value : Int)
  | foreign
  | str (value : String)
  | arr (elems : List Json)
  | obj (fields : List (String × Json))
deriving Repr, Inhabited

namespace Json

/-- The fields with these names, in this order; `none` stands for a missing one. Each
name may occur once at most, and other fields are passed over. -/
def named (names : List String) (fields : List (String × Json)) : Option (List (Option Json)) :=
  if names.all fun name => fields.countP (·.1 == name) ≤ 1 then
    some (names.map fun name => fields.lookup name)
  else none

/-- The fields of a record. An object gives them by name. A list may give them by
position, and then none may be missing. -/
def record (names : List String) : Json → Option (List (Option Json))
  | .obj fields => named names fields
  | .arr elems => if elems.length = names.length then some (elems.map some) else none
  | _ => none

def required {α : Type} (decode : Json → Option α) (field : Option Json) : Option α :=
  field.bind decode

def optional {α : Type} (decode : Json → Option α) : Option Json → Option (Option α)
  | none | some .null => some none
  | some value => (decode value).map some

def string? : Json → Option String
  | .str value => some value
  | _ => none

def list? : Json → Option (List Json)
  | .arr elems => some elems
  | _ => none

def intBetween? (low high : Int) : Json → Option Int
  | .int value => if low ≤ value ∧ value ≤ high then some value else none
  | _ => none

def uint8? (value : Json) : Option UInt8 :=
  (value.intBetween? 0 255).map fun n => n.toNat.toUInt8

def uint32? (value : Json) : Option UInt32 :=
  (value.intBetween? 0 4294967295).map fun n => n.toNat.toUInt32

def int64? (value : Json) : Option Int64 :=
  (value.intBetween? (-9223372036854775808) 9223372036854775807).map Int64.ofInt

mutual
def depth : Json → Nat
  | .arr elems => elemsDepth elems + 1
  | .obj fields => fieldsDepth fields + 1
  | _ => 0

def elemsDepth : List Json → Nat
  | [] => 0
  | value :: rest => max (depth value) (elemsDepth rest)

def fieldsDepth : List (String × Json) → Nat
  | [] => 0
  | (_, value) :: rest => max (depth value) (fieldsDepth rest)
end

mutual
def clip : (limit : Nat) → Json → Json
  | limit + 1, .arr elems => .arr (clipElems limit elems)
  | limit + 1, .obj fields => .obj (clipFields limit fields)
  | 0, .arr _ | 0, .obj _ => .foreign
  | _, value => value
termination_by structural _ value => value

def clipElems (limit : Nat) : List Json → List Json
  | [] => []
  | value :: rest => clip limit value :: clipElems limit rest
termination_by structural elems => elems

def clipFields (limit : Nat) : List (String × Json) → List (String × Json)
  | [] => []
  | (name, value) :: rest => (name, clip limit value) :: clipFields limit rest
termination_by structural fields => fields
end

mutual
def lastWins : Json → Json
  | .arr elems => .arr (lastWinsElems elems)
  | .obj fields => .obj (lastWinsFields fields)
  | value => value

def lastWinsElems : List Json → List Json
  | [] => []
  | value :: rest => lastWins value :: lastWinsElems rest

def lastWinsFields : List (String × Json) → List (String × Json)
  | [] => []
  | (name, value) :: rest =>
    let later := lastWinsFields rest
    if later.any (·.1 == name) then later else (name, lastWins value) :: later
end

end Json
end Midend
