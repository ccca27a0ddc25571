import Midend.Opcode
import Midend.Text.Quoted

/-! What a value of the graph can be, and how a value is described in messages. -/
namespace Midend

structure ValueId where
  index : Nat
deriving DecidableEq, Repr, Inhabited

structure UseId where
  index : Nat
deriving DecidableEq, Repr, Inhabited

def ValueId.text (id : ValueId) : String := "v" ++ toString id.index

structure Func where
  name : String
  args : List ValueId
deriving DecidableEq, Repr

/-- A block. Its operands in the graph are the blocks that jump to it; `preds` and
`succs` are edges derived from the terminators. -/
structure Block where
  name : Option String
  insts : List ValueId
  preds : List ValueId
  succs : List ValueId
  parent : ValueId
deriving DecidableEq, Repr

inductive Attr where
  | none
  | alloca (name : Option String)
  | icmp (predicate : Predicate)
deriving DecidableEq, Repr

structure Inst where
  opcode : Opcode
  parent : ValueId
  attr : Attr
deriving DecidableEq, Repr

/-- A function's operands are its blocks, a block's operands the blocks that jump to it,
and a global's operand is its initial value. -/
inductive Kind where
  | constInt (value : Int64)
  | constStr (value : String)
  | argument (index : Nat) (name : String)
  | global (name : String)
  | function (func : Func)
  | block (block : Block)
  | inst (inst : Inst)
deriving DecidableEq, Repr

def ValueId.description (v : ValueId) : String := "ValueId(" ++ toString v.index ++ ")"

namespace Describe

def list (items : List String) : String := "[" ++ String.intercalate ", " items ++ "]"

def ids (values : List ValueId) : String := list (values.map ValueId.description)

def option : Option String → String
  | some text => "Some(" ++ text ++ ")"
  | none => "None"

def name (name : Option String) : String := option (name.map Text.quoted)

def record (name : String) (fields : List (String × String)) : String :=
  name ++ " \x7b " ++
    String.intercalate ", " (fields.map fun field => field.1 ++ ": " ++ field.2) ++ " \x7d"

end Describe

def Attr.description : Attr → String
  | .none => "None"
  | .alloca name => Describe.record "Alloca" [("name", Describe.name name)]
  | .icmp predicate => "ICmp(" ++ predicate.title ++ ")"

def Func.description (f : Func) : String :=
  Describe.record "FunctionData" [("name", Text.quoted f.name), ("args", Describe.ids f.args)]

def Block.description (b : Block) : String :=
  Describe.record "BlockData" [("name", Describe.name b.name), ("insts", Describe.ids b.insts),
    ("preds", Describe.ids b.preds), ("succs", Describe.ids b.succs),
    ("parent", b.parent.description)]

def Inst.description (i : Inst) : String :=
  Describe.record "InstData" [("opcode", i.opcode.title), ("parent", i.parent.description),
    ("attr", i.attr.description)]

def Kind.description : Kind → String
  | .constInt value => "ConstInt(" ++ toString value.toInt ++ ")"
  | .constStr value => "ConstStr(" ++ Text.quoted value ++ ")"
  | .argument index name =>
    Describe.record "ArgRef" [("index", toString index), ("name", Text.quoted name)]
  | .global name => Describe.record "Global" [("name", Text.quoted name)]
  | .function f => "Function(" ++ f.description ++ ")"
  | .block b => "Block(" ++ b.description ++ ")"
  | .inst i => "Inst(" ++ i.description ++ ")"

namespace Kind

def isBlock : Kind → Bool
  | .block _ => true
  | _ => false

def isFunction : Kind → Bool
  | .function _ => true
  | _ => false

def isInst : Kind → Bool
  | .inst _ => true
  | _ => false

def opcode? : Kind → Option Opcode
  | .inst i => some i.opcode
  | _ => none

def isTerminator (kind : Kind) : Bool := kind.opcode?.any Opcode.isTerminator

def isAddress : Kind → Bool
  | .global _ => true
  | .inst i => i.opcode == .alloca
  | _ => false

def allocaName? : Kind → Option String
  | .inst { attr := .alloca name, .. } => name
  | _ => none

def predicate? : Kind → Option Predicate
  | .inst { attr := .icmp predicate, .. } => some predicate
  | _ => none

end Kind
end Midend
