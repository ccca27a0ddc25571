/-! Places in source files. Every node of a program carries one, and diagnostics
and generated instructions repeat it. -/
namespace Midend

structure Location where
  file : String
  line : UInt32
  column : UInt32
deriving DecidableEq, Repr

namespace Location

def unknown : Location := ⟨"<unknown>", 0, 0⟩

instance : Inhabited Location := ⟨unknown⟩

def text (location : Location) : String :=
  location.file ++ ":" ++ toString location.line.toNat ++ ":" ++ toString location.column.toNat

end Location
end Midend
