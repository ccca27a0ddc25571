/-! Instructions of the generated code: their families, names and operand counts,
and the predicates of integer comparison. -/
namespace Midend

inductive Opcode where
  | ret
  | br
  | jmp
  | add
  | sub
  | mul
  | udiv
  | sdiv
  | urem
  | srem
  | shl
  | lshr
  | ashr
  | and
  | or
  | xor
  | alloca
  | load
  | store
  | trunc
  | zext
  | sext
  | icmp
  | call
deriving DecidableEq, Repr

inductive Family where
  | term
  | binary
  | memory
  | cast
  | other
deriving DecidableEq, Repr

namespace Opcode

def all : List Opcode :=
  [.ret, .br, .jmp, .add, .sub, .mul, .udiv, .sdiv, .urem, .srem, .shl, .lshr, .ashr, .and, .or,
   .xor, .alloca, .load, .store, .trunc, .zext, .sext, .icmp, .call]

def number (op : Opcode) : Nat := all.idxOf op

def mnemonic : Opcode → String
  | .ret => "ret"
  | .br => "br"
  | .jmp => "jmp"
  | .add => "add"
  | .sub => "sub"
  | .mul => "mul"
  | .udiv => "udiv"
  | .sdiv => "sdiv"
  | .urem => "urem"
  | .srem => "srem"
  | .shl => "shl"
  | .lshr => "lshr"
  | .ashr => "ashr"
  | .and => "and"
  | .or => "or"
  | .xor => "xor"
  | .alloca => "alloca"
  | .load => "load"
  | .store => "store"
  | .trunc => "trunc"
  | .zext => "zext"
  | .sext => "sext"
  | .icmp => "icmp"
  | .call => "call"

def title : Opcode → String
  | .ret => "Ret"
  | .br => "Br"
  | .jmp => "Jmp"
  | .add => "Add"
  | .sub => "Sub"
  | .mul => "Mul"
  | .udiv => "UDiv"
  | .sdiv => "SDiv"
  | .urem => "URem"
  | .srem => "SRem"
  | .shl => "Shl"
  | .lshr => "LShr"
  | .ashr => "AShr"
  | .and => "And"
  | .or => "Or"
  | .xor => "Xor"
  | .alloca => "Alloca"
  | .load => "Load"
  | .store => "Store"
  | .trunc => "Trunc"
  | .zext => "ZExt"
  | .sext => "SExt"
  | .icmp => "ICmp"
  | .call => "Call"

def family : Opcode → Family
  | .ret | .br | .jmp => .term
  | .add | .sub | .mul | .udiv | .sdiv | .urem | .srem | .shl | .lshr | .ashr | .and | .or
  | .xor => .binary
  | .alloca | .load | .store => .memory
  | .trunc | .zext | .sext => .cast
  | .icmp | .call => .other

def arity : Opcode → Option Nat
  | .ret | .jmp | .load | .trunc | .zext | .sext => some 1
  | .br => some 3
  | .alloca => some 0
  | .call => none
  | _ => some 2

def isTerminator (op : Opcode) : Bool := op.family == .term

def isBinary (op : Opcode) : Bool := op.family == .binary

def isMemory (op : Opcode) : Bool := op.family == .memory

def isCast (op : Opcode) : Bool := op.family == .cast

def isLogicalShift : Opcode → Bool
  | .shl | .lshr => true
  | _ => false

def isArithmeticShift (op : Opcode) : Bool := op == .ashr

def isShift (op : Opcode) : Bool := op.isLogicalShift || op.isArithmeticShift

def ofMnemonic? (mnemonic : String) : Option Opcode := all.find? (·.mnemonic == mnemonic)

end Opcode

def Family.title : Family → String
  | .term => "Term"
  | .binary => "Binary"
  | .memory => "Memory"
  | .cast => "Cast"
  | .other => "Other"

inductive Predicate where
  | eq
  | ne
  | slt
  | sle
  | sgt
  | sge
  | ult
  | ule
  | ugt
  | uge
deriving DecidableEq, Repr

namespace Predicate

def all : List Predicate := [.eq, .ne, .slt, .sle, .sgt, .sge, .ult, .ule, .ugt, .uge]

def mnemonic : Predicate → String
  | .eq => "eq"
  | .ne => "ne"
  | .slt => "slt"
  | .sle => "sle"
  | .sgt => "sgt"
  | .sge => "sge"
  | .ult => "ult"
  | .ule => "ule"
  | .ugt => "ugt"
  | .uge => "uge"

def title : Predicate → String
  | .eq => "Eq"
  | .ne => "Ne"
  | .slt => "Slt"
  | .sle => "Sle"
  | .sgt => "Sgt"
  | .sge => "Sge"
  | .ult => "Ult"
  | .ule => "Ule"
  | .ugt => "Ugt"
  | .uge => "Uge"

def isSigned : Predicate → Bool
  | .slt | .sle | .sgt | .sge => true
  | _ => false

def ofMnemonic? (mnemonic : String) : Option Predicate := all.find? (·.mnemonic == mnemonic)

end Predicate
end Midend
