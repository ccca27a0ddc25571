import Midend.Tree.Stmt
import Midend.Lower.Expr

/-! Lowering of statements. -/
namespace Midend.Lower

def localVar (d : Decl) : Lower Unit :=
  withContext d.location do
    let slot ← build (Builder.alloca d.ty (some d.name))
    if let some initial := d.initializer then
      let value ← expr initial
      let _ ← build (Builder.assign slot value)
    build (Builder.declare d.name slot)

def ret (value : Option Expr) : Lower Unit := do
  let some state := (← get).module.current | build (Builder.fault .returnOutsideFunction)
  if let some e := value then
    let result ← expr e
    let _ ← build <| match state.returnSlot with
      | some slot => Builder.assign slot result
      | none => Builder.valueOf result
  if let some exit := state.exit then
    let _ ← build (Builder.jump exit)
  continueUnreachable

mutual
def stmt : Stmt → Lower Unit
  | .expr value location => withContext location do
    let _ ← expr value
  | .compound body location => withContext location do
    let block ← newBlock none
    jumpUnlessTerminated block
    build (Builder.setInsertPoint block)
    withScope (stmts false false body)
  | .declare decls location => withContext location (decls.forM localVar)
  | .ifElse condition thenStmt none location => withContext location do
    let value ← conditionOf condition.location (← expr condition)
    let thenBlock ← newBlock (some "if.then")
    let endBlock ← newBlock (some "if.end")
    let _ ← build (Builder.branch value thenBlock endBlock)
    build (Builder.setInsertPoint thenBlock)
    stmt thenStmt
    jumpUnlessTerminated endBlock
    build (Builder.setInsertPoint endBlock)
  | .ifElse condition thenStmt (some elseStmt) location => withContext location do
    let value ← conditionOf condition.location (← expr condition)
    let thenBlock ← newBlock (some "if.then")
    let elseBlock ← newBlock (some "if.else")
    let endBlock ← newBlock (some "if.end")
    let _ ← build (Builder.branch value thenBlock elseBlock)
    build (Builder.setInsertPoint thenBlock)
    stmt thenStmt
    jumpUnlessTerminated endBlock
    build (Builder.setInsertPoint elseBlock)
    stmt elseStmt
    jumpUnlessTerminated endBlock
    build (Builder.setInsertPoint endBlock)
  | .whileDo condition body location => withContext location do
    let condBlock ← newBlock (some "while.cond")
    let bodyBlock ← newBlock (some "while.body")
    let endBlock ← newBlock (some "while.end")
    jumpUnlessTerminated condBlock
    build (Builder.setInsertPoint condBlock)
    let value ← conditionOf condition.location (← expr condition)
    let _ ← build (Builder.branch value bodyBlock endBlock)
    build (Builder.setInsertPoint bodyBlock)
    withLoop ⟨condBlock, endBlock⟩ (stmt body)
    jumpUnlessTerminated condBlock
    build (Builder.setInsertPoint endBlock)
  | .breakLoop location => withContext location do
    match (← get).loops.head? with
    | none => fail (.breakOutsideLoop location)
    | some targets =>
      let _ ← build (Builder.jump targets.breakBlock)
      continueUnreachable
  | .continueLoop location => withContext location do
    match (← get).loops.head? with
    | none => fail (.continueOutsideLoop location)
    | some targets =>
      let _ ← build (Builder.jump targets.continueBlock)
      continueUnreachable
  | .ret value location => withContext location (ret value)
  | .empty location => withContext location (pure ())
termination_by structural s => s

/-- Lowers a list of statements. What follows a statement that jumps away is lowered too,
and its first statement is warned of. -/
def stmts (jumped warned : Bool) : List Stmt → Lower Unit
  | [] => return ()
  | s :: rest => do
    let warn := jumped && !warned
    if warn then
      withContext s.location (build (Builder.reportWarning "unreachable code"))
    stmt s
    stmts (jumped || s.jumps) (warned || warn) rest
termination_by structural ss => ss
end

end Midend.Lower
