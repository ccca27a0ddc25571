import Midend.Proofs.Lower.Pieces
import Midend.Proofs.Module.Likeness

/-! Lowering in two modules that are alike. The same is reported for both, and what is built
in them is alike. -/
namespace Midend
open List Builder Graph

namespace Likeness
variable (L : Likeness)

def targets (loop : LoopTargets) : LoopTargets := ⟨L.rename loop.continueBlock, L.rename loop.breakBlock⟩

structure Level (contexts : List Location) (s s' : Lowering) : Prop where
  module : L.Alike contexts s.module s'.module
  loops : s.loops = s'.loops.map L.targets

end Likeness

namespace Lower
variable {α β γ δ : Type} {L : Likeness} {ctx : List Location}

def Matched (L : Likeness) (contexts : List Location) (f : β → α) (x : Lower α) (y : Lower β) : Prop :=
  ∀ s s', L.Level contexts s s' → ∀ result after, x.run s = .ok (result, after) →
    ∃ result' after', y.run s' = .ok (result', after') ∧ result = result'.map f ∧ L.Level contexts after after'

namespace Matched
variable {f : β → α} {x : Lower α} {y : Lower β}
variable {e : LowerError}

theorem pure (val : β) : Matched L ctx f (pure (f val)) (pure val) := by
  intro s s' level res t ran
  cases ran
  exact ⟨.ok val, s', rfl, rfl, level⟩

theorem bind {h : δ → γ} {next : α → Lower γ} {next' : β → Lower δ} (first : Matched L ctx f x y)
    (second : ∀ val, Matched L ctx h (next (f val)) (next' val)) :
    Matched L ctx h (x >>= next) (y >>= next') := by
  intro s s' level res t ran
  obtain ⟨⟨hit, mid⟩, ran1, ran2⟩ := bind_eq_ok.1 (show (x.run s >>= _) = _ from ran)
  obtain ⟨found', middle', ran1', eq, level1⟩ := first s s' level hit mid ran1
  subst eq
  cases found' with
  | ok val =>
    obtain ⟨result', after', ran2', eq, level2⟩ := second val mid middle' level1 res t ran2
    exact ⟨result', after', bind_eq_ok.2 ⟨(.ok val, middle'), ran1', ran2'⟩, eq, level2⟩
  | error e =>
    cases ran2
    exact ⟨.error e, middle', bind_eq_ok.2 ⟨(.error e, middle'), ran1', rfl⟩, rfl, level1⟩

theorem build {action : Builder α} {action' : Builder β} (matched : Builder.Matched L ctx f action action') :
    Matched L ctx f (Lower.build action) (Lower.build action') := by
  intro s s' level res t ran
  obtain ⟨⟨val, module⟩, acted, built⟩ := bind_eq_ok.1 (show (action s.module >>= _) = _ from ran)
  cases built
  obtain ⟨value', module', acted', eq, alike⟩ := matched _ _ level.module _ _ acted
  refine ⟨.ok value', { s' with module := module' }, bind_eq_ok.2 ⟨(value', module'), acted', rfl⟩, ?_, alike, level.loops⟩
  rw [eq]
  rfl

theorem after {action : Builder α} {action' : Builder β} {h : δ → γ} {next : α → Lower γ} {next' : β → Lower δ}
    (matched : Builder.Matched L ctx f action action') (second : ∀ val, Matched L ctx h (next (f val)) (next' val)) :
    Matched L ctx h (Lower.build action >>= next) (Lower.build action' >>= next') :=
  (build matched).bind second

theorem get {next : Lowering → Lower α} {next' : Lowering → Lower β}
    (each : ∀ s s', L.Level ctx s s' → Matched L ctx f (next s) (next' s')) :
    Matched L ctx f (MonadState.get >>= next) (MonadState.get >>= next') :=
  fun s s' level res t ran => each s s' level s s' level res t ran

theorem throw : Matched L ctx f (throw e) (throw e) := by
  intro s s' level res t ran
  cases ran
  exact ⟨.error e, s', rfl, rfl, level⟩

theorem report (severity : Severity) (message : String) (identifier : Option String) :
    Matched L ctx id (Lower.build (Builder.report severity message identifier))
      (Lower.build (Builder.report severity message identifier)) := by
  refine .build (.modified fun m m' alike => ?_)
  have place : m.context? = m'.context? := by rw [Module.context?, alike.places, Module.context?, alike.places']
  rw [place]
  exact { alike with report := L.reported alike.report _ }

theorem fail : Matched L ctx f (Lower.fail e) (Lower.fail e) :=
  (report .error e.message e.identifier?).bind fun _ => throw

theorem between {inner : List Location} {pre before' leave leave' : Lowering → Lowering}
    (entering : ∀ s s', L.Level ctx s s' → L.Level inner (pre s) (before' s'))
    (leaving : ∀ s s', L.Level inner s s' → L.Level ctx (leave s) (leave' s')) (matched : Matched L inner f x y) :
    Matched L ctx f (Lower.between pre leave x) (Lower.between before' leave' y) := by
  intro s s' level res last ran
  obtain ⟨⟨hit, t⟩, acted, left⟩ := bind_eq_ok.1 (show (x.run _ >>= _) = _ from ran)
  cases left
  obtain ⟨found', after', acted', eq, path⟩ := matched _ _ (entering s s' level) _ _ acted
  exact ⟨found', leave' after', bind_eq_ok.2 ⟨(found', after'), acted', rfl⟩, eq, leaving _ _ path⟩

theorem withContext {loc : Location} (matched : Matched L (loc :: ctx) f x y) :
    Matched L ctx f (Lower.withContext loc x) (Lower.withContext loc y) := by
  refine .between (fun s s' level => ?_) (fun s s' level => ?_) matched
  · exact ⟨{ level.module with
      places := congrArg _ level.module.places, places' := congrArg _ level.module.places' }, level.loops⟩
  · exact ⟨{ level.module with
      places := congrArg List.tail level.module.places, places' := congrArg List.tail level.module.places' },
      level.loops⟩

theorem withScope (matched : Matched L ctx f x y) :
    Matched L ctx f (Lower.withScope x) (Lower.withScope y) := by
  refine .between (fun s s' level => ?_) (fun s s' level => ?_) matched
  · exact ⟨{ level.module with
      symbols := (congrArg _ level.module.symbols).trans (ScopeTable.push_map _ _) }, level.loops⟩
  · exact ⟨{ level.module with
      symbols := (congrArg _ level.module.symbols).trans (ScopeTable.pop_map _ _) }, level.loops⟩

theorem withLoop {loop : LoopTargets} (matched : Matched L ctx f x y) :
    Matched L ctx f (Lower.withLoop (L.targets loop) x) (Lower.withLoop loop y) := by
  refine .between (fun s s' level => ?_) (fun s s' level => ?_) matched
  · exact ⟨level.module, congrArg _ level.loops⟩
  · exact ⟨level.module, (congrArg _ level.loops).trans map_tail.symm⟩

theorem forM {items : List γ} {each each' : γ → Lower PUnit}
    (matched : ∀ item, Matched L ctx id (each item) (each' item)) :
    Matched L ctx id (items.forM each) (items.forM each') := by
  induction items with
  | nil => exact pure PUnit.unit
  | cons item tl ih => exact (matched item).bind fun _ => ih

end Matched

section Expressions

private theorem targetOf_matched (loc : Location) (slot : ValueId) :
    Matched L ctx L.rename (targetOf loc (L.rename slot)) (targetOf loc slot) := by
  refine .after (ask_kind_matched slot) fun k => ?_
  rw [Kind.isAddress_rename]
  split
  next => exact .pure slot
  next => exact .fail

private theorem integerOf_matched (loc : Location) (val : ValueId) :
    Matched L ctx L.rename (integerOf loc (L.rename val)) (integerOf loc val) := by
  refine .after (valueOf_matched val) fun val => ?_
  refine .after (ask_ty_matched val) fun ty => ?_
  dsimp only [id_eq]
  split
  next => exact .pure val
  next => exact .fail

private theorem toBool_matched (val : ValueId) :
    Builder.Matched L ctx L.rename (toBool (L.rename val)) (toBool val) := by
  refine (ask_ty_matched val).bind fun ty => ?_
  dsimp only [id_eq]
  split
  next => exact .pure val
  next => exact (constInt_matched 0 _).bind fun zero => icmp_matched .ne val zero

private theorem conditionOf_matched (loc : Location) (val : ValueId) :
    Matched L ctx L.rename (conditionOf loc (L.rename val)) (conditionOf loc val) := by
  refine .after (valueOf_matched val) fun val => ?_
  refine .after (ask_ty_matched val) fun ty => ?_
  dsimp only [id_eq]
  split
  next => exact .build (toBool_matched val)
  next => exact .fail

private theorem checkIntegerSlot_matched (loc : Location) (slot : ValueId) :
    Matched L ctx id (checkIntegerSlot loc (L.rename slot)) (checkIntegerSlot loc slot) := by
  refine .after (ask_ty_matched slot) fun ty => ?_
  dsimp only [id_eq]
  split
  next => exact .pure ()
  next => exact .fail

private theorem unary_matched (op : UnaryOp) (val : ValueId) :
    Builder.Matched L ctx L.rename (unary op (L.rename val)) (unary op val) := by
  refine (ask_ty_matched val).bind fun ty => ?_
  dsimp only [id_eq]
  cases op with
  | plus => exact .pure val
  | minus => exact (constInt_matched 0 _).bind fun zero => binary_matched .sub zero val
  | logicalNot => exact (constInt_matched 0 _).bind fun zero => icmp_matched .eq val zero
  | bitNot => exact (constInt_matched (-1) _).bind fun ones => binary_matched .xor val ones

private theorem logicBranch_matched (op : LogicOp) (lhs rhsBlock join : ValueId) :
    Builder.Matched L ctx id (logicBranch op (L.rename lhs) (L.rename rhsBlock) (L.rename join))
      (logicBranch op lhs rhsBlock join) := by
  cases op with
  | and => exact (branch_matched lhs rhsBlock join).bind fun _ => .pure ()
  | or => exact (branch_matched lhs join rhsBlock).bind fun _ => .pure ()

private theorem newBlock_matched (n : Option String) : Matched L ctx L.rename (newBlock n) (newBlock n) := by
  have current : Matched L ctx L.rename currentFunction currentFunction := by
    refine .get fun s s' level => ?_
    rw [level.module.current]
    cases s'.module.current with
    | none => exact .build .fault
    | some st => exact .pure st.function
  exact current.bind fun fn => .build (createBlock_matched fn n)

theorem findFunction_matched {m m' : Module} (alike : L.Alike ctx m m') (n : String) :
    m.findFunction n = (m'.findFunction n).map L.rename := by
  rw [Module.findFunction, alike.functions, find?_map, Module.findFunction]
  congr 2
  funext v
  rw [Function.comp_apply, L.kind alike.graph]
  cases m'.graph.kind? v with
  | none => rfl
  | some k => cases k <;> rfl

mutual
/-- An expression is lowered alike in modules that are alike. -/
theorem expr_matched {ctx : List Location} (e : Expr) : Matched L ctx L.rename (expr e) (expr e) := by
  cases e with
  | int val note => exact .withContext (.build (constInt_matched val _))
  | char val note => exact .withContext (.build (constInt_matched _ _))
  | string val note => exact .withContext (.build (constStr_matched val))
  | ident n note =>
    refine .withContext (.get fun s s' level => ?_)
    rw [level.module.symbols, ScopeTable.lookup_map]
    cases s'.module.symbols.lookup n with
    | none => exact .fail
    | some slot => exact .pure slot
  | binary op left right note =>
    refine .withContext ?_
    cases op with
    | assign base =>
      cases base with
      | none =>
        refine (expr_matched left).bind fun hit => (targetOf_matched _ hit).bind fun slot => ?_
        exact (expr_matched right).bind fun val => .build (assign_matched slot val)
      | some base =>
        refine (expr_matched left).bind fun hit => (targetOf_matched _ hit).bind fun slot => ?_
        refine (checkIntegerSlot_matched _ slot).bind fun _ => (expr_matched right).bind fun hit => ?_
        refine (integerOf_matched _ hit).bind fun val => ?_
        refine .after (binary_matched _ slot val) fun res => ?_
        exact .build (assign_matched slot res)
    | logic op =>
      refine .after (alloca_matched .bool none) fun slot => ?_
      refine (expr_matched left).bind fun hit => (conditionOf_matched _ hit).bind fun lhs => ?_
      refine .after (store_matched lhs slot) fun _ => ?_
      refine (newBlock_matched _).bind fun rhsBlock => (newBlock_matched _).bind fun join => ?_
      refine .after (logicBranch_matched op lhs rhsBlock join) fun _ => ?_
      refine .after (setInsertPoint_matched rhsBlock) fun _ => ?_
      refine (expr_matched right).bind fun hit => (conditionOf_matched _ hit).bind fun rhs => ?_
      refine .after (store_matched rhs slot) fun _ => ?_
      refine .after (jump_matched join) fun _ => ?_
      refine .after (setInsertPoint_matched join) fun _ => ?_
      exact .build (load_matched slot)
    | compare op =>
      refine (expr_matched left).bind fun hit => (integerOf_matched _ hit).bind fun lhs => ?_
      refine (expr_matched right).bind fun hit => (integerOf_matched _ hit).bind fun rhs => ?_
      exact .build (icmp_matched _ lhs rhs)
    | arith op =>
      refine (expr_matched left).bind fun hit => (integerOf_matched _ hit).bind fun lhs => ?_
      refine (expr_matched right).bind fun hit => (integerOf_matched _ hit).bind fun rhs => ?_
      exact .build (binary_matched _ lhs rhs)
  | unary op arg note =>
    refine .withContext ((expr_matched arg).bind fun hit => (integerOf_matched _ hit).bind fun val => ?_)
    exact .build (unary_matched op val)
  | call function arguments note =>
    refine .withContext (.get fun s s' level => ?_)
    rw [findFunction_matched level.module]
    cases s'.module.findFunction function with
    | none => exact .fail
    | some callee =>
      exact (exprs_matched arguments).bind fun args => .build (call_matched callee args)

theorem exprs_matched {ctx : List Location} (es : List Expr) :
    Matched L ctx (List.map L.rename) (exprs es) (exprs es) := by
  cases es with
  | nil => exact .pure []
  | cons e tl =>
    refine (expr_matched e).bind fun val => (exprs_matched tl).bind fun values => ?_
    exact .pure (val :: values)
end

end Expressions

section Statements

private theorem continueUnreachable_matched : Matched L ctx id continueUnreachable continueUnreachable :=
  (newBlock_matched none).bind fun b => .build (setInsertPoint_matched b)

private theorem jumpUnlessTerminated_matched (dest : ValueId) :
    Matched L ctx id (jumpUnlessTerminated (L.rename dest)) (jumpUnlessTerminated dest) := by
  have asked : Builder.Matched L ctx id (do StateT.lift (← get).isTerminated)
      (do StateT.lift (← get).isTerminated) := by
    intro m m' alike terminated t ran
    obtain ⟨hit, rfl⟩ := lift_ok.1 (get_bind_ok.1 ran)
    refine ⟨terminated, m', get_bind_ok.2 (lift_ok.2 ⟨?_, rfl⟩), rfl, alike⟩
    rw [Module.isTerminated, alike.insertPoint] at hit
    rw [Module.isTerminated]
    cases here : m'.insertPoint with
    | none =>
      rw [here] at hit
      exact hit
    | some pt =>
      rw [here] at hit
      obtain ⟨last, read, rfl⟩ := map_eq_ok.1 hit
      obtain ⟨last', _, read', rfl, _⟩ := ask_terminator?_matched pt.block m m' alike last m (ask_ok.2 ⟨read, rfl⟩)
      rw [Option.isSome_map]
      exact map_eq_ok.2 ⟨last', (ask_ok.1 read').1, rfl⟩
  refine .after asked fun terminated => ?_
  cases terminated with
  | true => exact .pure PUnit.unit
  | false => exact .after (jump_matched dest) fun _ => .pure PUnit.unit

private theorem declare_matched (n : String) (val : ValueId) :
    Builder.Matched L ctx id (Builder.declare n (L.rename val)) (Builder.declare n val) := by
  refine .modified fun m m' alike => { alike with symbols := ?_ }
  rw [alike.symbols, ScopeTable.insert_map]

private theorem localVar_matched (d : Decl) : Matched L ctx id (localVar d) (localVar d) := by
  refine .withContext (.after (alloca_matched _ _) fun slot => ?_)
  cases d.initializer with
  | none => exact .build (declare_matched _ slot)
  | some initial =>
    refine (expr_matched initial).bind fun val => ?_
    exact .after (assign_matched slot val) fun _ => .build (declare_matched _ slot)

theorem ret_matched (val : Option Expr) : Matched L ctx id (ret val) (ret val) := by
  refine .get fun s s' level => ?_
  rw [level.module.current]
  cases s'.module.current with
  | none => exact .build .fault
  | some st =>
    have leaving : Matched L ctx id (leaveBy (L.state st).exit) (leaveBy st.exit) := by
      rw [Likeness.state]
      cases st.exit with
      | none => exact continueUnreachable_matched
      | some exit => exact .after (jump_matched exit) fun _ => continueUnreachable_matched
    cases val with
    | none => exact leaving
    | some e =>
      refine (expr_matched e).bind fun res => ?_
      have stored : Builder.Matched L ctx L.rename (keepResult (L.state st).returnSlot (L.rename res))
          (keepResult st.returnSlot res) := by
        rw [Likeness.state]
        cases st.returnSlot with
        | none => exact valueOf_matched res
        | some slot => exact assign_matched slot res
      exact .after stored fun _ => leaving

mutual
theorem stmt_matched {ctx : List Location} (s : Stmt) : Matched L ctx id (stmt s) (stmt s) := by
  cases s with
  | expr val loc => exact .withContext ((expr_matched val).bind fun _ => .pure ())
  | compound body loc =>
    refine .withContext ((newBlock_matched none).bind fun b => ?_)
    refine (jumpUnlessTerminated_matched b).bind fun _ => ?_
    refine .after (setInsertPoint_matched b) fun _ => ?_
    exact .withScope (stmts_matched false false body)
  | declare decls loc => exact .withContext (.forM localVar_matched)
  | ifElse cond thenStmt elseStmt loc =>
    cases elseStmt with
    | none =>
      refine .withContext ((expr_matched cond).bind fun hit => (conditionOf_matched _ hit).bind fun val => ?_)
      refine (newBlock_matched _).bind fun thenBlock => (newBlock_matched _).bind fun join => ?_
      refine .after (branch_matched val thenBlock join) fun _ => ?_
      refine .after (setInsertPoint_matched thenBlock) fun _ => ?_
      refine (stmt_matched thenStmt).bind fun _ => (jumpUnlessTerminated_matched join).bind fun _ => ?_
      exact .build (setInsertPoint_matched join)
    | some elseStmt =>
      refine .withContext ((expr_matched cond).bind fun hit => (conditionOf_matched _ hit).bind fun val => ?_)
      refine (newBlock_matched _).bind fun thenBlock => (newBlock_matched _).bind fun elseBlock => ?_
      refine (newBlock_matched _).bind fun join => ?_
      refine .after (branch_matched val thenBlock elseBlock) fun _ => ?_
      refine .after (setInsertPoint_matched thenBlock) fun _ => ?_
      refine (stmt_matched thenStmt).bind fun _ => (jumpUnlessTerminated_matched join).bind fun _ => ?_
      refine .after (setInsertPoint_matched elseBlock) fun _ => ?_
      refine (stmt_matched elseStmt).bind fun _ => (jumpUnlessTerminated_matched join).bind fun _ => ?_
      exact .build (setInsertPoint_matched join)
  | whileDo cond body loc =>
    refine .withContext ((newBlock_matched _).bind fun condBlock => (newBlock_matched _).bind fun bodyBlock => ?_)
    refine (newBlock_matched _).bind fun join => (jumpUnlessTerminated_matched condBlock).bind fun _ => ?_
    refine .after (setInsertPoint_matched condBlock) fun _ => ?_
    refine (expr_matched cond).bind fun hit => (conditionOf_matched _ hit).bind fun val => ?_
    refine .after (branch_matched val bodyBlock join) fun _ => ?_
    refine .after (setInsertPoint_matched bodyBlock) fun _ => ?_
    have looped : Matched L (loc :: ctx) id (withLoop (L.targets ⟨condBlock, join⟩) (stmt body))
        (withLoop ⟨condBlock, join⟩ (stmt body)) := .withLoop (stmt_matched body)
    refine looped.bind fun _ => (jumpUnlessTerminated_matched condBlock).bind fun _ => ?_
    exact .build (setInsertPoint_matched join)
  | breakLoop loc =>
    refine .withContext (.get fun s s' level => ?_)
    rw [level.loops, head?_map]
    cases s'.loops.head? with
    | none => exact .fail
    | some loop =>
      exact .after (jump_matched loop.breakBlock) fun _ => continueUnreachable_matched
  | continueLoop loc =>
    refine .withContext (.get fun s s' level => ?_)
    rw [level.loops, head?_map]
    cases s'.loops.head? with
    | none => exact .fail
    | some loop =>
      exact .after (jump_matched loop.continueBlock) fun _ => continueUnreachable_matched
  | ret val loc => exact .withContext (ret_matched val)
  | empty loc => exact .withContext (.pure ())

theorem stmts_matched {ctx : List Location} (jumped warned : Bool) (ss : List Stmt) :
    Matched L ctx id (stmts jumped warned ss) (stmts jumped warned ss) := by
  cases ss with
  | nil => exact .pure ()
  | cons s tl =>
    have going : Matched L ctx id (do stmt s; stmts (jumped || s.jumps) (warned || (jumped && !warned)) tl)
        (do stmt s; stmts (jumped || s.jumps) (warned || (jumped && !warned)) tl) :=
      (stmt_matched s).bind fun _ => stmts_matched _ _ tl
    rw [stmts]
    dsimp only
    split
    next => exact (Matched.withContext (.report .warning _ _)).bind fun _ => going
    next => exact going
end

end Statements

section Functions

private theorem paramSlot_matched (param : Param) (arg : ValueId) :
    Matched L ctx id (paramSlot param (L.rename arg)) (paramSlot param arg) := by
  refine .after (alloca_matched _ _) fun slot => ?_
  exact .after (store_matched arg slot) fun _ => .build (declare_matched _ slot)

private theorem returnSlot_matched (ty : Ty) : Matched L ctx (Option.map L.rename) (returnSlot ty) (returnSlot ty) := by
  unfold returnSlot
  split
  next => exact .pure none
  next =>
    refine .after (alloca_matched _ _) fun slot => ?_
    have noted : Builder.Matched L ctx id (Builder.setReturnSlot (L.rename slot)) (Builder.setReturnSlot slot) := by
      refine .modified fun m m' alike => { alike with current := ?_ }
      rw [alike.current, Option.map_map, Option.map_map]
      rfl
    exact .after noted fun _ => .pure (some slot)

private theorem setFunctionExit_matched (exit : ValueId) :
    Builder.Matched L ctx id (Builder.setFunctionExit (L.rename exit)) (Builder.setFunctionExit exit) := by
  refine .modified fun m m' alike => { alike with current := ?_ }
  rw [alike.current, Option.map_map, Option.map_map]
  rfl

private theorem outermost_matched (body : Stmt) : Matched L ctx id (outermost body) (outermost body) := by
  cases body with
  | compound body loc => exact stmts_matched false false body
  | _ => exact stmt_matched _

theorem ask_function_matched (fn : ValueId) :
    Builder.Matched L ctx (fun d => ⟨d.name, d.args.map L.rename⟩)
      (Builder.ask (·.function (L.rename fn))) (Builder.ask (·.function fn)) := by
  refine .ask fun g g' like d hit => ?_
  rw [function_eq_ok, L.kind like] at hit
  obtain ⟨k, found', eq⟩ := Option.map_eq_some_iff.1 hit
  cases k with
  | function data' =>
    cases eq
    exact ⟨data', function_eq_ok.2 found', rfl⟩
  | _ => cases eq

/-- The body of a function is lowered alike in modules that are alike. -/
theorem functionBody_matched {fn : ValueId} (movable : L.movable fn) (f : FuncDef) :
    Matched L ctx id (functionBody (L.rename fn) f) (functionBody fn f) := by
  refine .after (Builder.createBlock_matched fn _) fun entry => ?_
  refine .after (Builder.setInsertPoint_matched entry) fun _ => ?_
  refine .after (ask_function_matched fn) fun d => ?_
  have params : Matched L ctx id
      ((f.params.zip (d.args.map L.rename)).forM fun pair => paramSlot pair.1 pair.2)
      ((f.params.zip d.args).forM fun pair => paramSlot pair.1 pair.2) := by
    rw [List.zip_map_right]
    induction f.params.zip d.args with
    | nil => exact .pure PUnit.unit
    | cons pair tl ih => exact (paramSlot_matched pair.1 pair.2).bind fun _ => ih
  refine params.bind fun _ => (returnSlot_matched _).bind fun slot => ?_
  refine .after (Builder.createBlock_matched fn _) fun exit => ?_
  refine .after (setFunctionExit_matched exit) fun _ => ?_
  refine .after (Builder.createBlock_matched fn _) fun body => ?_
  refine .after (Builder.jump_matched body) fun _ => ?_
  refine .after (Builder.setInsertPoint_matched body) fun _ => ?_
  refine (outermost_matched f.body).bind fun _ => (jumpUnlessTerminated_matched exit).bind fun _ => ?_
  refine .after (Builder.moveBlockToEnd_matched movable exit) fun _ => ?_
  refine .after (Builder.setInsertPoint_matched exit) fun _ => ?_
  have loaded : Builder.Matched L ctx (Option.map L.rename) ((slot.map L.rename).mapM Builder.load)
      (slot.mapM Builder.load) := by
    cases slot with
    | none => exact .pure none
    | some slot =>
      rw [Option.map_some, Option.mapM_some, Option.mapM_some, map_eq_pure_bind, map_eq_pure_bind]
      exact (Builder.load_matched slot).bind fun val => .pure (some val)
  refine .after loaded fun res => ?_
  exact .after (Builder.ret_matched res) fun _ => .pure ()

end Functions
end Lower

/-! A run is compared with itself to see what it keeps. -/

section Rename

private theorem Kind.rename_id (k : Kind) : k.rename id = k := by
  cases k with
  | function d => simp [Kind.rename]
  | block d => simp [Kind.rename, Block.rename]
  | _ => rfl

theorem ScopeTable.map_id {α : Type} (table : ScopeTable α) : table.map id = table := by
  have sc : List.map (Prod.map (id : String → String) (id : α → α)) = id := by
    rw [Prod.map_id, map_id_fun]
  rw [ScopeTable.map, sc, List.map_id]
  rfl

end Rename

structure Graph.Upheld (movable : ValueId → Prop) (P : Graph → Prop) : Prop where
  consistent : ∀ {g}, P g → g.Consistent
  add : ∀ {g}, P g → ∀ kind ty limit, kind.Built limit → P (g.add kind ty limit).2
  addAt : ∀ {g}, P g → ∀ kind ty limit location after, kind.Built limit → (g.add kind ty limit).2.modify
    (g.add kind ty limit).1 (fun data => { data with location }) = .ok after → P after
  addOperand : ∀ {g}, P g → ∀ user target slot after, g.addOperand user (some target) = .ok (slot, after) → P after
  setBlock : ∀ {g}, P g → ∀ v old data after, g.kind? v = some (.block old) → g.setKind v (.block data) = .ok after →
    P after
  setOperand : ∀ {g}, P g → ∀ user index target after, movable user → g.setOperand user index target = .ok after →
    P after

namespace Graph.Upheld
variable {movable : ValueId → Prop} {P : Graph → Prop}

def likeness (upheld : Upheld movable P) (reported : Report) : Likeness where
  rename := id
  graph g g' := g = g' ∧ P g
  report r r' := r = r' ∧ reported.diagnostics <+: r.diagnostics
  movable := movable
  injective := Function.injective_id
  consistent := by
    intro g g' ⟨same, holds⟩
    exact ⟨upheld.consistent holds, same ▸ upheld.consistent holds⟩
  kind := by
    intro g g' ⟨same, _⟩ v
    rw [funext Kind.rename_id, same]
    exact Option.map_id'.symm
  ty := by
    intro g g' ⟨same, _⟩ v
    rw [same, id_eq]
  operands := by
    intro g g' ⟨same, _⟩ v
    rw [Option.map_id, map_id, same, id_eq]
  add := by
    intro g g' ⟨same, holds⟩ kind ty limit built
    subst same
    rw [Kind.rename_id]
    exact ⟨rfl, rfl, upheld.add holds kind ty limit built⟩
  addAt := by
    intro g g' ⟨same, holds⟩ kind ty limit location after built done
    subst same
    rw [Kind.rename_id] at done
    exact ⟨after, done, rfl, upheld.addAt holds kind ty limit location after built done⟩
  addOperand := by
    intro g g' ⟨same, holds⟩ user target slot after done
    subst same
    exact ⟨slot, after, done, rfl, upheld.addOperand holds user target slot after done⟩
  setBlock := by
    intro g g' ⟨same, holds⟩ v old data after found done
    subst same
    have unchanged : data.rename id = data := by simp [Block.rename]
    rw [unchanged] at done
    exact ⟨after, done, rfl, upheld.setBlock holds v old data after found done⟩
  setOperand := by
    intro g g' ⟨same, holds⟩ user index target after known done
    subst same
    rw [Option.map_id, id_eq] at done
    exact ⟨after, done, rfl, upheld.setOperand holds user index target after known done⟩
  reported := by
    intro r r' ⟨same, before⟩ d
    exact ⟨same ▸ rfl, before.trans (prefix_append _ _)⟩

/-- Lowering a function keeps what building keeps, leaves the places as they are and only adds to the report,
also if it finds a mistake. -/
theorem functionBody {s t : Lowering} {fn : ValueId} {f : FuncDef} {res : Except LowerError Unit}
    (upheld : Upheld movable P) (own : movable fn) (h : P s.module.graph)
    (ran : (Lower.functionBody fn f).run s = .ok (res, t)) :
    P t.module.graph ∧ t.module.contexts = s.module.contexts ∧
      s.module.report.diagnostics <+: t.module.report.diagnostics := by
  have s0 : (upheld.likeness s.module.report).Level s.module.contexts s s := by
    refine ⟨⟨⟨rfl, h⟩, ?_, ?_, rfl, rfl, ?_, ?_, rfl, prefix_rfl⟩, ?_⟩
    · exact (map_id _).symm
    · exact (ScopeTable.map_id _).symm
    · exact Option.map_id'.symm
    · have unchanged : (upheld.likeness s.module.report).state = id := by
        funext st
        simp [Likeness.state, likeness]
      rw [unchanged, Option.map_id, id_eq]
    · exact (map_id _).symm
  obtain ⟨_, after', ran', _, path⟩ :=
    Lower.functionBody_matched (L := upheld.likeness s.module.report) own f s s s0 res t ran
  exact ⟨path.module.graph.2, path.module.places, path.module.report.2⟩

end Graph.Upheld

structure Graph.Keeps (g after : Graph) : Prop where
  consistent : after.Consistent
  functions : ∀ v data, g.kind? v = some (.function data) → after.kind? v = some (.function data)
  types : ∀ v ty, g.ty? v = some ty → after.ty? v = some ty
  limits : ∀ v limit, g.limit? v = some limit → after.limit? v = some limit

namespace Graph.Keeps
variable {g mid t : Graph}

theorem rewired {change : ValueId → List (Option ValueId) → List (Option ValueId)} (keeps : g.Keeps mid)
    (wired : mid.Rewired t change) : g.Keeps t :=
  ⟨wired.consistent, fun v d hit => (wired.kind? v).trans (keeps.functions v d hit),
    fun v ty hit => (wired.ty? v).trans (keeps.types v ty hit),
    fun v lim hit => (wired.limit? v).trans (keeps.limits v lim hit)⟩

theorem added {v : ValueId} {k : Kind} {ty : Ty} (keeps : g.Keeps mid) (add : mid.Added t v k ty) :
    g.Keeps t :=
  ⟨add.consistent, fun w d hit => add.kind?_of_some (keeps.functions w d hit),
    fun w ty hit => add.ty?_of_some (keeps.types w ty hit),
    fun w lim hit => add.limit?_of_some (keeps.limits w lim hit)⟩

private theorem reblocked {v : ValueId} {old d : Block} (keeps : g.Keeps mid) (hb : mid.kind? v = some (.block old))
    (rekinded : mid.Rekinded t v (.block d)) : g.Keeps t := by
  refine ⟨rekinded.consistent, fun w fn hit => ?_,
    fun w ty hit => (rekinded.ty? w).trans (keeps.types w ty hit),
    fun w lim hit => (rekinded.limit? w).trans (keeps.limits w lim hit)⟩
  have kept := keeps.functions w fn hit
  rw [rekinded.kind?, if_neg, kept]
  intro eq
  rw [eq, hb] at kept
  cases kept

private theorem upheld (g : Graph) : Upheld (fun _ => True) g.Keeps where
  consistent keeps := keeps.consistent
  add keeps k ty lim _ := keeps.added (keeps.consistent.add_added k ty lim)
  addAt keeps k ty lim loc t _ done := by
    have added := keeps.added (keeps.consistent.add_added k ty lim)
    exact added.rewired (relocate_rewired added.consistent done)
  addOperand keeps _ _ _ _ done := keeps.rewired (addOperand_rewired keeps.consistent done)
  setBlock keeps _ _ _ _ hit done := keeps.reblocked hit (setKind_rekinded keeps.consistent done)
  setOperand keeps user i dest t _ done := by
    obtain ⟨slot, _, moved⟩ := setOperand_eq_ok done
    have eq := (setUse_redirected moved).sameValues
    refine ⟨keeps.consistent.setOperand done, fun v d hit => ?_, fun v ty hit => ?_, fun v lim hit => ?_⟩
    · exact (eq.kind? v).trans (keeps.functions v d hit)
    · exact (eq.ty? v).trans (keeps.types v ty hit)
    · exact (eq.limit? v).trans (keeps.limits v lim hit)

end Graph.Keeps

/-- Lowering a function leaves the functions, the types and the places as they are and only adds to the report,
also if it finds a mistake. -/
theorem Lower.functionBody_keeps {s t : Lowering} {fn : ValueId} {f : FuncDef} {res : Except LowerError Unit}
    (valid : s.module.graph.Consistent) (ran : (functionBody fn f).run s = .ok (res, t)) :
    s.module.graph.Keeps t.module.graph ∧ t.module.contexts = s.module.contexts ∧
      s.module.report.diagnostics <+: t.module.report.diagnostics :=
  (Graph.Keeps.upheld s.module.graph).functionBody trivial
    ⟨valid, fun _ _ hit => hit, fun _ _ hit => hit, fun _ _ hit => hit⟩ ran

end Midend
