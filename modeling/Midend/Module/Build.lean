import Midend.Module.Basic

/-! Building code. Every instruction is put in at the insertion point, which moves past
it, and is given the place of the innermost construct. Stack slots are the exception:
they go into the entry block of the function that is being built. -/
namespace Midend.Builder

def createFunction (name : String) (ty : Ty) (argNames : List String) : Builder ValueId := do
  ensure ty.isFunc (.notFunctionType name)
  ensure (ty.paramTypes.length == argNames.length)
    (.argumentNames name ty.paramTypes.length argNames.length)
  let func ← addValue (.function ⟨name, []⟩) ty none
  let args ← (ty.paramTypes.zip argNames).zipIdx.mapM fun ((paramTy, argName), index) =>
    addValue (.argument index argName) paramTy (some 0)
  change (·.setKind func (.function ⟨name, args⟩))
  modify fun m => { m with functions := m.functions ++ [func] }
  return func

def turnTo (func block : ValueId) : Builder Unit := do
  if (← get).current.any (·.function = func) then pure ()
  else
    let entry := (← ask (·.entryBlock func)).getD block
    modify fun m => { m with current := some { function := func, entry } }

def createBlock (func : ValueId) (name : Option String) : Builder ValueId := do
  let block ← addValue (.block ⟨name, [], [], [], func⟩) .label none
  addOperand func block
  turnTo func block
  return block

def moveBlockToEnd (func block : ValueId) : Builder Unit :=
  change fun g => do g.moveBlock func block (← g.operandCount func)

def setInsertPointAt (block : ValueId) (index : Nat) : Builder Unit := do
  ensure (← ask (·.kind block)).isBlock .insertPointNotBlock
  modify fun m => { m with insertPoint := some ⟨block, index⟩ }

def setInsertPoint (block : ValueId) : Builder Unit := do
  setInsertPointAt block (← ask (·.block block)).insts.length

def withInsertPoint {α : Type} (point : InsertPoint) (action : Builder α) : Builder α := do
  let saved := (← get).insertPoint
  modify fun m => { m with insertPoint := some point }
  let result ← action
  modify fun m => { m with insertPoint := saved }
  return result

def constInt (value : Int64) (ty : Ty) : Builder ValueId := addValue (.constInt value) ty (some 0)

def constStr (value : String) : Builder ValueId :=
  addValue (.constStr value) Ty.str.constant (some 0)

def argument (index : Nat) (name : String) (ty : Ty) : Builder ValueId :=
  addValue (.argument index name) ty (some 0)

def createGlobal (name : String) (ty : Ty) (initial : Option ValueId) : Builder ValueId := do
  let global ← addValue (.global name) (.pointer ty) (some 1)
  if let some value := initial then addOperand global value
  modify fun m => { m with globals := m.globals ++ [global] }
  return global

/-- Checks that an instruction may stand at a point: a block has one terminator at most,
and nothing comes after it. -/
def checkPoint (point : InsertPoint) (op : Opcode) : Builder Unit := do
  if let some last ← ask (·.terminator? point.block) then
    ensure (!op.isTerminator) (.secondTerminator ((← get).graph.opcode? last))
    let insts := (← ask (·.block point.block)).insts
    ensure (point.index < insts.length) (.afterTerminator op)

def spliceInst (point : InsertPoint) (inst : ValueId) : Builder Unit := do
  change fun g => do
    match ← g.kind point.block with
    | .block b =>
      if point.index ≤ b.insts.length then
        g.setKind point.block (.block { b with insts := b.insts.insertIdx point.index inst })
      else throw (.insertPastEnd point.index b.insts.length)
    | _ => throw (.wrongKind point.block .block none)

def insertInst (op : Opcode) (ty : Ty) (operands : List ValueId) (attr : Attr) :
    Builder ValueId := do
  let some point := (← get).insertPoint | fault (.noInsertPoint op)
  checkPoint point op
  let limit := op.arity.map fun arity => max arity operands.length
  let inst ← addValue (.inst ⟨op, point.block, attr⟩) ty limit
  let location := (← get).context?
  change (·.modify inst fun v => { v with location })
  operands.forM (addOperand inst)
  spliceInst point inst
  modify fun m => { m with insertPoint := some { point with index := point.index + 1 } }
  return inst

def movePast (block : ValueId) (position : Nat) : Builder Unit := do
  match (← get).insertPoint with
  | some point =>
    if point.block = block ∧ position ≤ point.index then
      let moved ← StateT.lift point.next
      modify fun m => { m with insertPoint := some moved }
    else pure ()
  | none => pure ()

/-- Makes a stack slot, before the terminator of the entry block. The insertion point
stays where it is among the other instructions. -/
def alloca (ty : Ty) (name : Option String) : Builder ValueId := do
  ensure (!ty.isVoid) .allocaOfVoid
  let some state := (← get).current | fault .allocaOutsideFunction
  let entry := state.entry
  let terminated := (← ask (·.terminator? entry)).isSome
  let length := (← ask (·.block entry)).insts.length
  let position := if terminated then length - 1 else length
  let slot ← withInsertPoint ⟨entry, position⟩
    (insertInst .alloca (.pointer ty.unqualified) [] (.alloca name))
  movePast entry position
  return slot

def load (ptr : ValueId) : Builder ValueId := do
  let ty ← ask (·.ty ptr)
  match ty.pointee? with
  | some pointee => insertInst .load pointee [ptr] .none
  | none => fault (.loadThrough ty)

def store (value ptr : ValueId) : Builder ValueId := do
  let ty ← ask (·.ty ptr)
  ensure ty.isPointer (.storeThrough ty)
  insertInst .store .void [value, ptr] .none

def valueOf (value : ValueId) : Builder ValueId := do
  if (← ask (·.kind value)).isAddress then load value else return value

def cast (op : Opcode) (value : ValueId) (ty : Ty) : Builder ValueId := do
  ensure op.isCast (.notCast op)
  insertInst op ty [value] .none

/-- Brings an integer to the width of a type. A signed integer is widened with its sign;
what is no integer stays as it is. -/
def convert (value : ValueId) (ty : Ty) : Builder ValueId := do
  let source ← ask (·.ty value)
  match source.bitWidth, ty.bitWidth with
  | some width, some wanted =>
    if width < wanted then
      cast (if source.isSigned then .sext else .zext) value ty.unqualified
    else if wanted < width then cast .trunc value ty.unqualified
    else return value
  | _, _ => return value

/-- Stores a value, or what it holds if it is an address, in a slot, and gives the value
as it was stored. -/
def assign (slot source : ValueId) : Builder ValueId := do
  let value ← valueOf source
  let ty ← ask (·.ty slot)
  match ty.pointee? with
  | none => fault (.assignTo ty)
  | some pointee =>
    let value ← convert value pointee
    let _ ← store value slot
    return value

def unify (lhs rhs : ValueId) : Builder (ValueId × ValueId × Ty) := do
  let lhs ← valueOf lhs
  let rhs ← valueOf rhs
  let lhsTy ← ask (·.ty lhs)
  let rhsTy ← ask (·.ty rhs)
  ensure (lhsTy.isInteger && rhsTy.isInteger) (.operandsNotIntegers lhsTy rhsTy)
  let ty := lhsTy.common rhsTy
  return (← convert lhs ty, ← convert rhs ty, ty)

def binary (op : Opcode) (lhs rhs : ValueId) : Builder ValueId := do
  ensure op.isBinary (.notBinary op)
  let (lhs, rhs, ty) ← unify lhs rhs
  insertInst op ty [lhs, rhs] .none

def icmp (predicate : Predicate) (lhs rhs : ValueId) : Builder ValueId := do
  let (lhs, rhs, _) ← unify lhs rhs
  insertInst .icmp .bool [lhs, rhs] (.icmp predicate)

def call (callee : ValueId) (args : List ValueId) : Builder ValueId := do
  let ty ← ask (·.ty callee)
  ensure ty.isFunc (.callOf ty)
  ensure (ty.paramTypes.length == args.length) (.argumentCount ty.paramTypes.length args.length)
  let args ← (args.zip ty.paramTypes).mapM fun (arg, paramTy) => do
    convert (← valueOf arg) paramTy
  insertInst .call (ty.returnType?.getD .void) (callee :: args) .none

def addEdge (target : ValueId) : Builder Unit := do
  match (← get).insertBlock? with
  | some source => addOperand target source
  | none => pure ()

def jump (target : ValueId) : Builder ValueId := do
  ensure (← ask (·.kind target)).isBlock .jumpTarget
  let inst ← insertInst .jmp .void [target] .none
  addEdge target
  return inst

def branch (condition thenBlock elseBlock : ValueId) : Builder ValueId := do
  let ty ← ask (·.ty condition)
  ensure ty.isBool (.branchCondition ty)
  let inst ← insertInst .br .void [condition, thenBlock, elseBlock] .none
  addEdge thenBlock
  addEdge elseBlock
  return inst

def ret (value : Option ValueId) : Builder ValueId := insertInst .ret .void value.toList .none

end Midend.Builder
