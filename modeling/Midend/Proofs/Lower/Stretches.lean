import Midend.Proofs.Lower.Pieces

/-! Lowering that also tells what is unreachable. In a list of statements, all that is lowered after a statement that
jumps away is one stretch. -/
namespace Midend

structure Stretch where
  location : Location
  first : Nat
  last : Nat

namespace Stretch

def Has (m : Stretch) (v : ValueId) : Prop := m.first ≤ v.index ∧ v.index < m.last

def Covers (m : Stretch) (block : ValueId) : Prop := m.first ≤ block.index + 1 ∧ block.index < m.last

end Stretch

namespace Lower
variable {α β : Type}

mutual
def stretches : Stmt → Lower (List Stretch)
  | .compound body location => withContext location do
    let block ← newBlock none
    jumpUnlessTerminated block
    build (Builder.setInsertPoint block)
    withScope (stretchesIn false false body)
  | .ifElse condition thenStmt none location => withContext location do
    let value ← conditionOf condition.location (← expr condition)
    let thenBlock ← newBlock (some "if.then")
    let endBlock ← newBlock (some "if.end")
    let _ ← build (Builder.branch value thenBlock endBlock)
    build (Builder.setInsertPoint thenBlock)
    let found ← stretches thenStmt
    jumpUnlessTerminated endBlock
    build (Builder.setInsertPoint endBlock)
    return found
  | .ifElse condition thenStmt (some elseStmt) location => withContext location do
    let value ← conditionOf condition.location (← expr condition)
    let thenBlock ← newBlock (some "if.then")
    let elseBlock ← newBlock (some "if.else")
    let endBlock ← newBlock (some "if.end")
    let _ ← build (Builder.branch value thenBlock elseBlock)
    build (Builder.setInsertPoint thenBlock)
    let found ← stretches thenStmt
    jumpUnlessTerminated endBlock
    build (Builder.setInsertPoint elseBlock)
    let others ← stretches elseStmt
    jumpUnlessTerminated endBlock
    build (Builder.setInsertPoint endBlock)
    return found ++ others
  | .whileDo condition body location => withContext location do
    let condBlock ← newBlock (some "while.cond")
    let bodyBlock ← newBlock (some "while.body")
    let endBlock ← newBlock (some "while.end")
    jumpUnlessTerminated condBlock
    build (Builder.setInsertPoint condBlock)
    let value ← conditionOf condition.location (← expr condition)
    let _ ← build (Builder.branch value bodyBlock endBlock)
    build (Builder.setInsertPoint bodyBlock)
    let found ← withLoop ⟨condBlock, endBlock⟩ (stretches body)
    jumpUnlessTerminated condBlock
    build (Builder.setInsertPoint endBlock)
    return found
  | s => do
    stmt s
    return []
termination_by structural s => s

def stretchesIn (jumped warned : Bool) : List Stmt → Lower (List Stretch)
  | [] => return []
  | s :: rest => do
    let before ← get
    let warn := jumped && !warned
    if warn then
      withContext s.location (build (Builder.reportWarning "unreachable code"))
    let inner ← stretches s
    let later ← stretchesIn (jumped || s.jumps) (warned || warn) rest
    let after ← get
    let size (s : Lowering) := s.module.graph.values.size
    return (if warn then [⟨s.location, size before, size after⟩] else []) ++ inner ++ later
termination_by structural ss => ss
end

def outermostStretches : Stmt → Lower (List Stretch)
  | .compound body _ => stretchesIn false false body
  | body => stretches body

def bodyStretches (func : ValueId) (f : FuncDef) : Lower (List Stretch) := do
  let entry ← build (Builder.createBlock func (some "entry"))
  build (Builder.setInsertPoint entry)
  let args := (← build (Builder.ask (·.function func))).args
  (f.params.zip args).forM fun (param, arg) => paramSlot param arg
  let slot ← returnSlot f.returnType
  let exit ← build (Builder.createBlock func (some "func_exit"))
  build (Builder.setFunctionExit exit)
  let body ← build (Builder.createBlock func (some "body"))
  let _ ← build (Builder.jump body)
  build (Builder.setInsertPoint body)
  let found ← outermostStretches f.body
  jumpUnlessTerminated exit
  build (Builder.moveBlockToEnd func exit)
  build (Builder.setInsertPoint exit)
  let result ← build (slot.mapM Builder.load)
  let _ ← build (Builder.ret result)
  return found

private theorem map_between {pre after : Lowering → Lowering} (f : α → β) (x : Lower α) :
    f <$> between pre after x = between pre after (f <$> x) := by
  funext s
  show (x (pre s) >>= _) >>= _ = (x (pre s) >>= _) >>= _
  rw [bind_assoc, bind_assoc]
  congr 1
  funext pair
  obtain ⟨hit, t⟩ := pair
  cases hit <;> rfl

private theorem get_bind_const {x : Lower α} : (get >>= fun _ => x) = x := rfl

mutual
/-- A statement is lowered as without the record of its stretches. -/
theorem stmt_eq_stretches (s : Stmt) : stmt s = (fun _ => ()) <$> stretches s := by
  cases s with
  | compound body loc =>
    simp only [stmt, stretches, withContext, withScope, map_between, map_bind, stmts_eq_stretches body]
  | ifElse cond thenStmt elseStmt loc =>
    cases elseStmt with
    | none =>
      simp only [stmt, stretches, withContext, map_between, map_bind, stmt_eq_stretches thenStmt, bind_map_left, map_pure,
        bind_pure_unit]
    | some elseStmt =>
      simp only [stmt, stretches, withContext, map_between, map_bind, stmt_eq_stretches thenStmt,
        stmt_eq_stretches elseStmt, bind_map_left, map_pure, bind_pure_unit]
  | whileDo cond body loc =>
    have lt : ∀ {dests} {next : Lower Unit}, (withLoop dests ((fun _ => ()) <$> stretches body) >>= fun _ => next) =
        withLoop dests (stretches body) >>= fun _ => next := by
      intro dests next
      rw [withLoop, ← map_between, bind_map_left]
      rfl
    simp only [stmt, stretches, withContext, map_between, map_bind, stmt_eq_stretches body, lt, map_pure, bind_pure_unit]
  | _ => simp only [stretches, map_bind, map_pure, bind_pure_unit]
termination_by structural s

theorem stmts_eq_stretches (body : List Stmt) {jumped warned : Bool} :
    stmts jumped warned body = (fun _ => ()) <$> stretchesIn jumped warned body := by
  cases body with
  | nil => simp only [stmts, stretchesIn, map_pure]
  | cons s tl =>
    rw [stmts, stretchesIn, stmt_eq_stretches s, stmts_eq_stretches tl]
    cases warn : jumped && !warned <;>
      simp only [Bool.false_eq_true, if_false, if_true, map_bind, bind_map_left, map_pure, get_bind_const]
    all_goals simp only [bind_pure_comp]
termination_by structural body
end

theorem outermost_eq_stretches (body : Stmt) : outermost body = (fun _ => ()) <$> outermostStretches body := by
  cases body with
  | compound body loc => exact stmts_eq_stretches body
  | _ => exact stmt_eq_stretches _

theorem functionBody_eq_stretches (fn : ValueId) (f : FuncDef) :
    functionBody fn f = (fun _ => ()) <$> bodyStretches fn f := by
  simp only [functionBody, bodyStretches, outermost_eq_stretches, map_bind, map_pure, bind_map_left]

end Lower
end Midend
