import Midend.Json.Basic
import Midend.Text.Quoted

/-! Writing JSON values, either on one line without blanks or spread over indented
lines. -/
namespace Midend.Json

def hexPair (n : Nat) : String := if n < 16 then "0" ++ Text.hex n else Text.hex n

def escapedChar (c : Char) : String :=
  match c with
  | '"' => "\\\""
  | '\\' => "\\\\"
  | '\x08' => "\\b"
  | '\x0c' => "\\f"
  | '\n' => "\\n"
  | '\r' => "\\r"
  | '\t' => "\\t"
  | c => if c.toNat < 0x20 then "\\u00" ++ hexPair c.toNat else c.toString

def writeString (out s : String) : String :=
  s.toList.foldl (fun out c => out ++ escapedChar c) (out ++ "\"") ++ "\""

mutual
def writeCompact (out : String) : Json → String
  | .null | .foreign => out ++ "null"
  | .bool value => out ++ if value then "true" else "false"
  | .int value => out ++ toString value
  | .str value => writeString out value
  | .arr [] => out ++ "[]"
  | .arr (first :: rest) => writeCompactElems (writeCompact (out ++ "[") first) rest ++ "]"
  | .obj [] => out ++ "\x7b\x7d"
  | .obj ((name, value) :: rest) =>
    writeCompactFields (writeCompact (writeString (out ++ "\x7b") name ++ ":") value) rest ++ "\x7d"

def writeCompactElems (out : String) : List Json → String
  | [] => out
  | value :: rest => writeCompactElems (writeCompact (out ++ ",") value) rest

def writeCompactFields (out : String) : List (String × Json) → String
  | [] => out
  | (name, value) :: rest =>
    writeCompactFields (writeCompact (writeString (out ++ ",") name ++ ":") value) rest
end

def compact (value : Json) : String := writeCompact "" value

def newLine (level : Nat) : String := "\n" ++ String.ofList (List.replicate (2 * level) ' ')

mutual
/-- Adds the indented form of a value to a text. Each level is indented by two blanks,
and an empty list or object stays on its line. -/
def writePretty (level : Nat) (out : String) : Json → String
  | .null | .foreign => out ++ "null"
  | .bool value => out ++ if value then "true" else "false"
  | .int value => out ++ toString value
  | .str value => writeString out value
  | .arr [] => out ++ "[]"
  | .arr (first :: rest) =>
    let out := writePretty (level + 1) (out ++ "[" ++ newLine (level + 1)) first
    writePrettyElems (level + 1) out rest ++ newLine level ++ "]"
  | .obj [] => out ++ "\x7b\x7d"
  | .obj ((name, value) :: rest) =>
    let out := writeString (out ++ "\x7b" ++ newLine (level + 1)) name ++ ": "
    writePrettyFields (level + 1) (writePretty (level + 1) out value) rest ++
      newLine level ++ "\x7d"

def writePrettyElems (level : Nat) (out : String) : List Json → String
  | [] => out
  | value :: rest =>
    writePrettyElems level (writePretty level (out ++ "," ++ newLine level) value) rest

def writePrettyFields (level : Nat) (out : String) : List (String × Json) → String
  | [] => out
  | (name, value) :: rest =>
    let out := writeString (out ++ "," ++ newLine level) name ++ ": "
    writePrettyFields level (writePretty level out value) rest
end

def pretty (value : Json) : String := writePretty 0 "" value

end Midend.Json
