import Midend.Text.Printable

/-! Quoted text. Quotes and backslashes are escaped, line ends, tabs and the null
character have short escapes, and every other character that would not show is
written by its code point. -/
namespace Midend.Text

def hex (n : Nat) : String := String.ofList (Nat.toDigits 16 n)

def escaped (c : Char) : String :=
  match c with
  | '"' => "\\\""
  | '\\' => "\\\\"
  | '\n' => "\\n"
  | '\r' => "\\r"
  | '\t' => "\\t"
  | '\x00' => "\\0"
  | c => if isShown c then c.toString else "\\u\x7b" ++ hex c.toNat ++ "\x7d"

def quoted (s : String) : String :=
  s.toList.foldl (fun text c => text ++ escaped c) "\"" ++ "\""

end Midend.Text
