import Midend.Names
import Midend.Module.Basic

/-! The text of a module: its globals, then its functions with their blocks and
instructions. -/
namespace Midend

namespace Names

def hint (g : Graph) (id : ValueId) : Except Fault (Option String) := do
  match ← g.kind id with
  | .argument _ name => return some name
  | .block b => return b.name
  | kind => return kind.allocaName?

def assign (g : Graph) (names : Names) (id : ValueId) : Except Fault Names := do
  return (names.name id (← hint g id)).2

def assignHinted (g : Graph) (names : Names) (id : ValueId) : Except Fault Names := do
  match ← hint g id with
  | some hint => return (names.name id (some hint)).2
  | none => return names

def assignInst (g : Graph) (names : Names) (id : ValueId) : Except Fault Names := do
  if (← g.ty id).isVoid then return names else assign g names id

def assignBlock (g : Graph) (names : Names) (id : ValueId) : Except Fault Names := do
  let names ← assign g names id
  (← g.block id).insts.foldlM (assignInst g) names

/-- Names all values of a function: arguments first, then the blocks that wish for a
name, then everything else in order. -/
def ofFunction (g : Graph) (func : ValueId) : Except Fault Names := do
  let names ← (← g.function func).args.foldlM (assign g) {}
  let blocks ← g.functionBlocks func
  let names ← blocks.foldlM (assignHinted g) names
  blocks.foldlM (assignBlock g) names

end Names

namespace Graph

def operandText (g : Graph) (names : Names) : Option ValueId → Except Fault String
  | none => return "<null>"
  | some id => do
    match ← g.kind id with
    | .constInt value => return toString value.toInt
    | .constStr value => return Text.quoted value
    | .global name => return "@" ++ name
    | .function f => return "@" ++ f.name
    | _ =>
      match names.get? id with
      | some name => return "%" ++ name
      | none => return "%<" ++ id.text ++ ">"

def typedText (g : Graph) (names : Names) : Option ValueId → Except Fault String
  | none => return "<null>"
  | some id => return (← g.ty id).text ++ " " ++ (← g.operandText names (some id))

def bodyText (g : Graph) (names : Names) (id : ValueId) (ty : Ty) : Except Fault String := do
  let inst ← g.inst id
  let operands ← g.operands id
  let operand (n : Nat) : Option ValueId := operands[n]?.join
  match inst.opcode with
  | .alloca => return "alloca " ++ (ty.pointee?.map Ty.text).getD ""
  | .load => return "load " ++ ty.text ++ ", " ++ (← g.typedText names (operand 0))
  | .store =>
    return "store " ++ (← g.typedText names (operand 0)) ++ ", " ++
      (← g.typedText names (operand 1))
  | .icmp =>
    let predicate := match inst.attr with
      | .icmp predicate => predicate.mnemonic
      | _ => ""
    return "icmp " ++ predicate ++ " " ++ (← g.typedText names (operand 0)) ++ ", " ++
      (← g.operandText names (operand 1))
  | .trunc | .zext | .sext =>
    return inst.opcode.mnemonic ++ " " ++ (← g.typedText names (operand 0)) ++ " to " ++ ty.text
  | .call =>
    let args ← (operands.drop 1).mapM (g.typedText names)
    return "call " ++ ty.text ++ " " ++ (← g.operandText names (operand 0)) ++ "(" ++
      String.intercalate ", " args ++ ")"
  | .jmp => return "jmp label " ++ (← g.operandText names (operand 0))
  | .br =>
    return "br " ++ (← g.typedText names (operand 0)) ++ ", label " ++
      (← g.operandText names (operand 1)) ++ ", label " ++ (← g.operandText names (operand 2))
  | .ret =>
    match operand 0 with
    | some value => return "ret " ++ (← g.typedText names (some value))
    | none => return "ret void"
  | op =>
    return op.mnemonic ++ " " ++ ty.text ++ " " ++ (← g.operandText names (operand 0)) ++ ", " ++
      (← g.operandText names (operand 1))

def instText (g : Graph) (names : Names) (id : ValueId) : Except Fault String := do
  let ty ← g.ty id
  let body ← g.bodyText names id ty
  if ty.isVoid then return body
  else return (← g.operandText names (some id)) ++ " = " ++ body

def blockText (g : Graph) (names : Names) (id : ValueId) : Except Fault String := do
  let label := (names.get? id).getD ""
  let preds ← (← g.liveOperands id).mapM fun pred => g.operandText names (some pred)
  let head :=
    if preds.isEmpty then label ++ ":\n"
    else label ++ ": ; preds: " ++ String.intercalate ", " preds ++ "\n"
  let lines ← (← g.block id).insts.mapM fun inst => do
    return "  " ++ (← g.instText names inst) ++ "\n"
  return head ++ String.join lines

def functionText (g : Graph) (func : ValueId) : Except Fault String := do
  let names ← Names.ofFunction g func
  let f ← g.function func
  let args ← f.args.mapM fun arg => g.typedText names (some arg)
  let head := "define " ++ (← g.returnType func).text ++ " @" ++ f.name ++ "(" ++
    String.intercalate ", " args ++ ") \x7b\n"
  let blocks ← (← g.functionBlocks func).mapM (g.blockText names)
  return head ++ String.intercalate "\n" blocks ++ "\x7d\n"

def globalText (g : Graph) (id : ValueId) : Except Fault String := do
  match ← g.kind id with
  | .global name =>
    let storage := ((← g.ty id).pointee?.map Ty.text).getD ""
    let initial ← match ← g.operand id 0 with
      | some value => g.operandText {} (some value)
      | none => pure "zeroinitializer"
    return "@" ++ name ++ " = global " ++ storage ++ " " ++ initial ++ "\n"
  | _ => return ""

end Graph

def Module.text (m : Module) : Except Fault String := do
  let globals ← m.globals.mapM m.graph.globalText
  let functions ← m.functions.mapM fun func => ("\n" ++ ·) <$> m.graph.functionText func
  let gap := if m.globals.isEmpty then "" else "\n"
  return "; ModuleID = '" ++ m.name ++ "'\n" ++ gap ++ String.join globals ++ String.join functions

end Midend
