import Midend.Json.Basic

/-! Reading JSON documents. A document is one value with nothing but blanks around
it. -/
namespace Midend.Json

def skipBlanks : List Char → List Char
  | c :: rest => if c = ' ' ∨ c = '\n' ∨ c = '\t' ∨ c = '\r' then skipBlanks rest else c :: rest
  | [] => []

def hexDigit? (c : Char) : Option Nat :=
  if '0' ≤ c ∧ c ≤ '9' then some (c.toNat - '0'.toNat)
  else if 'a' ≤ c ∧ c ≤ 'f' then some (c.toNat - 'a'.toNat + 10)
  else if 'A' ≤ c ∧ c ≤ 'F' then some (c.toNat - 'A'.toNat + 10)
  else none

def codeUnit? (a b c d : Char) : Option Nat := do
  return (((← hexDigit? a) * 16 + (← hexDigit? b)) * 16 + (← hexDigit? c)) * 16 + (← hexDigit? d)

inductive Piece where
  | whole (c : Char)
  | half (unit : Nat)

def Piece.ofCodeUnit (unit : Nat) : Piece :=
  if 0xd800 ≤ unit ∧ unit ≤ 0xdfff then .half unit else .whole (Char.ofNat unit)

def joined? : List Piece → Option (List Char)
  | [] => some []
  | .whole c :: rest => (joined? rest).map (c :: ·)
  | .half high :: .half low :: rest =>
    if high < 0xdc00 ∧ 0xdc00 ≤ low then
      (joined? rest).map (Char.ofNat (0x10000 + (high - 0xd800) * 0x400 + (low - 0xdc00)) :: ·)
    else none
  | .half _ :: _ => none

def escape? : Char → Option Char
  | '"' => some '"'
  | '\\' => some '\\'
  | '/' => some '/'
  | 'b' => some '\x08'
  | 'f' => some '\x0c'
  | 'n' => some '\n'
  | 'r' => some '\r'
  | 't' => some '\t'
  | _ => none

/-- The pieces up to the closing quote, added in front of `found` in reverse, and what
follows the quote. -/
def pieces? (found : List Piece) : List Char → Option (List Piece × List Char)
  | '"' :: rest => some (found.reverse, rest)
  | '\\' :: 'u' :: a :: b :: c :: d :: rest =>
    match codeUnit? a b c d with
    | some unit => pieces? (.ofCodeUnit unit :: found) rest
    | none => none
  | '\\' :: e :: rest =>
    match escape? e with
    | some c => pieces? (.whole c :: found) rest
    | none => none
  | c :: rest => if c.toNat < 0x20 then none else pieces? (.whole c :: found) rest
  | [] => none

def text? (input : List Char) : Option (Option String × List Char) :=
  (pieces? [] input).map fun (pieces, rest) => ((joined? pieces).map String.ofList, rest)

def digitsValue (digits : List Char) : Nat :=
  digits.foldl (fun n c => n * 10 + (c.toNat - '0'.toNat)) 0

def skipDigits? (input : List Char) : Option (List Char) :=
  match input with
  | c :: rest => if c.isDigit then some (rest.dropWhile Char.isDigit) else none
  | [] => none

def skipExponent? : List Char → Option (List Char)
  | c :: rest =>
    if c = 'e' ∨ c = 'E' then
      match rest with
      | '+' :: digits | '-' :: digits => skipDigits? digits
      | digits => skipDigits? digits
    else some (c :: rest)
  | [] => some []

/-- A number after its sign. Only a number without fraction and exponent is an
integer, and negative zero is none. -/
def number? (negative : Bool) (input : List Char) : Option (Json × List Char) := do
  let digits := input.takeWhile Char.isDigit
  let rest := input.dropWhile Char.isDigit
  if digits = [] ∨ (digits.head? = some '0' ∧ digits.length ≠ 1) then none
  match rest with
  | '.' :: fraction => return (.foreign, ← skipExponent? (← skipDigits? fraction))
  | 'e' :: _ | 'E' :: _ => return (.foreign, ← skipExponent? rest)
  | _ =>
    let value := digitsValue digits
    if negative then
      return (if value = 0 then .foreign else .int (-(value : Int)), rest)
    else return (.int value, rest)

def ofFields (fields : List (Option String × Json)) : Json :=
  match fields.mapM fun (name, value) => name.map (·, value) with
  | some fields => .obj fields
  | none => .foreign

mutual
/-- Reads one value and gives what follows it. Each step uses up one unit of fuel, and
no document takes more than two steps for a character. -/
def value? : (fuel : Nat) → List Char → Option (Json × List Char)
  | 0, _ => none
  | fuel + 1, input =>
    match skipBlanks input with
    | 'n' :: 'u' :: 'l' :: 'l' :: rest => some (.null, rest)
    | 't' :: 'r' :: 'u' :: 'e' :: rest => some (.bool true, rest)
    | 'f' :: 'a' :: 'l' :: 's' :: 'e' :: rest => some (.bool false, rest)
    | '"' :: rest =>
      (text? rest).map fun (value, rest) => ((value.map Json.str).getD .foreign, rest)
    | '[' :: rest =>
      match skipBlanks rest with
      | ']' :: rest => some (.arr [], rest)
      | rest => elems? fuel [] rest
    | '{' :: rest =>
      match skipBlanks rest with
      | '}' :: rest => some (.obj [], rest)
      | rest => fields? fuel [] rest
    | '-' :: rest => number? true rest
    | rest => number? false rest

def elems? : (fuel : Nat) → (found : List Json) → List Char → Option (Json × List Char)
  | 0, _, _ => none
  | fuel + 1, found, input =>
    match value? fuel input with
    | none => none
    | some (value, rest) =>
      match skipBlanks rest with
      | ',' :: rest => elems? fuel (value :: found) rest
      | ']' :: rest => some (.arr (value :: found).reverse, rest)
      | _ => none

def fields? : (fuel : Nat) → (found : List (Option String × Json)) → List Char →
    Option (Json × List Char)
  | 0, _, _ => none
  | fuel + 1, found, input =>
    match skipBlanks input with
    | '"' :: rest =>
      match text? rest with
      | none => none
      | some (name, rest) =>
        match skipBlanks rest with
        | ':' :: rest =>
          match value? fuel rest with
          | none => none
          | some (value, rest) =>
            match skipBlanks rest with
            | ',' :: rest => fields? fuel ((name, value) :: found) rest
            | '}' :: rest => some (ofFields ((name, value) :: found).reverse, rest)
            | _ => none
        | _ => none
    | _ => none
end

def parse? (document : String) : Option Json :=
  let input := document.toList
  match value? (2 * input.length + 2) input with
  | some (value, rest) => if skipBlanks rest = [] then some value else none
  | none => none

def nestingLimit : Nat := 127

def read? (document : String) : Option Json :=
  (parse? document).map (clip nestingLimit)

end Midend.Json
