import Midend.Proofs.Lower.Unaffected

/-! What is reported. Building code reports nothing, so the errors in the report are the mistakes for which
items were given up, one for each of them and in their order, and the warnings are for lists of statements in which
something follows a jump, one for each of them. -/
namespace Midend

def Diagnostic.unreachable (location : Location) : Diagnostic := ⟨.warning, "unreachable code", location, none⟩

def Diagnostic.mistakes (notes : List Diagnostic) : List (String × Option String) :=
  (notes.filter (·.severity = .error)).map fun d => (d.message, d.identifier)

namespace Report
variable {report : Report} {notes : List Diagnostic}

def mistakes (report : Report) : List (String × Option String) := Diagnostic.mistakes report.diagnostics

/-- The counters are the numbers of recorded diagnostics of each severity. -/
structure Counted (report : Report) : Prop where
  errors : report.errorCount = report.diagnostics.countP (·.severity = .error)
  warnings : report.warningCount = report.diagnostics.countP (·.severity = .warning)

theorem Counted.add (counted : report.Counted) (d : Diagnostic) : (report.add d).Counted := by
  obtain ⟨errors, warnings⟩ := counted
  cases severe : d.severity <;> constructor <;> simp [Report.add, List.countP_append, severe, errors, warnings]

private theorem Counted.addAll (counted : report.Counted) : (notes.foldl Report.add report).Counted := by
  induction notes generalizing report with
  | nil => exact counted
  | cons d rest ih => exact ih (counted.add d)

theorem diagnostics_addAll : (notes.foldl Report.add report).diagnostics = report.diagnostics ++ notes := by
  induction notes generalizing report with
  | nil => simp
  | cons d rest ih => simp [ih]

private theorem errorCount_addAll :
    (notes.foldl Report.add report).errorCount = report.errorCount + (Diagnostic.mistakes notes).length := by
  induction notes generalizing report with
  | nil => rfl
  | cons d rest ih =>
    rw [List.foldl_cons, ih]
    cases severe : d.severity <;> simp [Report.add, Diagnostic.mistakes, severe, Nat.add_assoc, Nat.add_comm]

end Report

mutual
def Stmt.unreachable : Stmt → List Location
  | .compound body _ => Stmt.unreachableIn body
  | .ifElse _ thenStmt none _ => thenStmt.unreachable
  | .ifElse _ thenStmt (some elseStmt) _ => thenStmt.unreachable ++ elseStmt.unreachable
  | .whileDo _ body _ => body.unreachable
  | _ => []
termination_by structural s => s

def Stmt.unreachableIn : List Stmt → List Location
  | [] => []
  | s :: rest => s.unreachable ++
    if s.jumps then (rest.head?.map Stmt.location).toList ++ Stmt.nestedUnreachable rest else Stmt.unreachableIn rest
termination_by structural ss => ss

def Stmt.nestedUnreachable : List Stmt → List Location
  | [] => []
  | s :: rest => s.unreachable ++ Stmt.nestedUnreachable rest
termination_by structural ss => ss
end

namespace Builder
variable {α β : Type}
variable {ty : Ty} {dest b fn ptr val lhs rhs : ValueId} {op : Opcode} {pt : InsertPoint} {n : String}

def Silent (action : Builder α) : Prop :=
  ∀ m value after, action m = .ok (value, after) → after.report = m.report

namespace Silent
variable {f : Fault} {items : List α}

theorem pure {val : α} : Silent (Pure.pure val) := by
  intro m res t done
  rw [(pure_ok.1 done).2]

theorem bind {action : Builder α} {next : α → Builder β} (first : Silent action)
    (second : ∀ val, Silent (next val)) : Silent (action >>= next) := by
  intro m res t done
  obtain ⟨val, mid, acted, tl⟩ := bind_ok.1 done
  rw [second val mid res t tl, first m val mid acted]

theorem get {next : Module → Builder β} (each : ∀ m, Silent (next m)) : Silent (MonadState.get >>= next) := by
  intro m res t done
  exact each m m res t (get_bind_ok.1 done)

theorem modified {f : Module → Module} (eq : ∀ m, (f m).report = m.report) : Silent (modify f) := by
  intro m res t done
  rw [modify_ok.1 done]
  exact eq m

theorem fault : Silent (Builder.fault f : Builder α) :=
  fun _ _ _ done => absurd done fault_ok

theorem lift {x : Except Fault α} : Silent (StateT.lift x) := by
  intro m res t done
  rw [(lift_ok.1 done).2]

theorem ensure {cond : Bool} : Silent (Builder.ensure cond f) := by
  intro m res t done
  rw [(ensure_ok.1 done).2]

theorem ask {read : Graph → Except Fault α} : Silent (Builder.ask read) := by
  intro m res t done
  rw [(ask_ok.1 done).2]

theorem step {f : Graph → Except Fault (α × Graph)} : Silent (Builder.step f) := by
  intro m res t done
  obtain ⟨graph, _, eq⟩ := step_ok.1 done
  rw [eq]

theorem change {f : Graph → Except Fault Graph} : Silent (Builder.change f) := by
  intro m res t done
  obtain ⟨graph, _, eq⟩ := change_ok.1 done
  rw [eq]

theorem forM {each : α → Builder PUnit} (silent : ∀ item, Silent (each item)) : Silent (items.forM each) := by
  induction items with
  | nil => exact pure
  | cons item tl ih => exact (silent item).bind fun _ => ih

theorem mapM {each : α → Builder β} (silent : ∀ item, Silent (each item)) : Silent (items.mapM each) := by
  induction items with
  | nil => exact pure
  | cons item tl ih =>
    rw [List.mapM_cons]
    exact (silent item).bind fun _ => ih.bind fun _ => pure

end Silent

private theorem addValue_silent {k : Kind} {lim : Option Nat} : Silent (addValue k ty lim) := .step

private theorem addOperand_silent {user : ValueId} : Silent (addOperand user dest) := .bind .step fun _ => .pure

private theorem checkPoint_silent : Silent (checkPoint pt op) := by
  apply Silent.bind .ask
  intro last
  split
  · exact .get fun _ => .bind .ensure fun _ => .bind .ask fun _ => .ensure
  · exact .pure

private theorem insertInst_silent {ops : List ValueId} {attr : Attr} : Silent (insertInst op ty ops attr) := by
  apply Silent.get
  intro m
  split
  · apply Silent.bind checkPoint_silent
    intro _
    refine addValue_silent.bind fun i => .get fun _ => ?_
    refine Silent.change.bind fun _ => (Silent.forM fun _ => addOperand_silent).bind fun _ => ?_
    exact Silent.change.bind fun _ => .bind (.modified fun _ => rfl) fun _ => .pure
  · exact .fault

private theorem movePast_silent {pos : Nat} : Silent (movePast b pos) := by
  apply Silent.get
  intro m
  split
  · split
    · exact .bind .lift fun _ => .modified fun _ => rfl
    · exact .pure
  · exact .pure

private theorem withInsertPoint_silent {action : Builder α} (silent : Silent action) : Silent (withInsertPoint pt action) :=
  .get fun _ => .bind (.modified fun _ => rfl) fun _ => silent.bind fun _ => .bind (.modified fun _ => rfl) fun _ => .pure

private theorem alloca_silent {n : Option String} : Silent (alloca ty n) := by
  refine Silent.ensure.bind fun _ => .get fun m => ?_
  split
  · refine Silent.ask.bind fun _ => Silent.ask.bind fun _ => ?_
    exact (withInsertPoint_silent insertInst_silent).bind fun _ => movePast_silent.bind fun _ => .pure
  · exact .fault

private theorem createBlock_silent {n : Option String} : Silent (createBlock fn n) := by
  refine addValue_silent.bind fun b => addOperand_silent.bind fun _ => .bind (.get fun m => ?_) fun _ => .pure
  split
  · exact .pure
  · exact Silent.ask.bind fun _ => .modified fun _ => rfl

private theorem setInsertPoint_silent : Silent (setInsertPoint b) :=
  Silent.ask.bind fun _ => Silent.ask.bind fun _ => Silent.ensure.bind fun _ => .modified fun _ => rfl

private theorem load_silent : Silent (load ptr) := by
  apply Silent.bind .ask
  intro ty
  split
  · exact insertInst_silent
  · exact .fault

private theorem store_silent : Silent (store val ptr) :=
  Silent.ask.bind fun _ => Silent.ensure.bind fun _ => insertInst_silent

private theorem valueOf_silent : Silent (valueOf val) := by
  apply Silent.bind .ask
  intro k
  split
  · exact load_silent
  · exact .pure

private theorem cast_silent : Silent (cast op val ty) :=
  Silent.ensure.bind fun _ => insertInst_silent

private theorem convert_silent : Silent (convert val ty) := by
  apply Silent.bind .ask
  intro source
  split
  · split
    · exact cast_silent
    · split
      · exact cast_silent
      · exact .pure
  · exact .pure

private theorem assign_silent {slot source : ValueId} : Silent (assign slot source) := by
  refine valueOf_silent.bind fun val => Silent.ask.bind fun ty => ?_
  split
  · exact .fault
  · exact convert_silent.bind fun _ => store_silent.bind fun _ => .pure

private theorem unify_silent : Silent (unify lhs rhs) :=
  valueOf_silent.bind fun _ => valueOf_silent.bind fun _ => Silent.ask.bind fun _ => Silent.ask.bind fun _ =>
    Silent.ensure.bind fun _ => convert_silent.bind fun _ => convert_silent.bind fun _ => .pure

private theorem binary_silent : Silent (binary op lhs rhs) :=
  Silent.ensure.bind fun _ => unify_silent.bind fun _ => insertInst_silent

private theorem icmp_silent {pred : Predicate} : Silent (icmp pred lhs rhs) :=
  unify_silent.bind fun _ => insertInst_silent

private theorem call_silent {callee : ValueId} {args : List ValueId} : Silent (call callee args) :=
  Silent.ask.bind fun _ => Silent.ensure.bind fun _ => Silent.ensure.bind fun _ =>
    (Silent.mapM fun _ => valueOf_silent.bind fun _ => convert_silent).bind fun _ => insertInst_silent

private theorem addEdge_silent : Silent (addEdge dest) := by
  apply Silent.get
  intro m
  split
  · exact addOperand_silent
  · exact .pure

private theorem jump_silent : Silent (jump dest) :=
  Silent.ask.bind fun _ => Silent.ensure.bind fun _ => insertInst_silent.bind fun _ => addEdge_silent.bind fun _ => .pure

private theorem branch_silent {cond thenBlock elseBlock : ValueId} : Silent (branch cond thenBlock elseBlock) :=
  Silent.ask.bind fun _ => Silent.ensure.bind fun _ => insertInst_silent.bind fun _ => addEdge_silent.bind fun _ =>
    addEdge_silent.bind fun _ => .pure

private theorem createFunction_silent {argNames : List String} : Silent (createFunction n ty argNames) :=
  Silent.ensure.bind fun _ => Silent.ensure.bind fun _ => addValue_silent.bind fun _ =>
    (Silent.mapM fun _ => addValue_silent).bind fun _ => Silent.change.bind fun _ =>
      .bind (.modified fun _ => rfl) fun _ => .pure

private theorem createGlobal_silent {initial : Option ValueId} : Silent (createGlobal n ty initial) := by
  apply Silent.bind addValue_silent
  intro global
  cases initial with
  | none => exact .bind (.modified fun _ => rfl) fun _ => .pure
  | some val => exact addOperand_silent.bind fun _ => .bind (.modified fun _ => rfl) fun _ => .pure

private theorem removeFunction_silent : Silent (removeFunction fn) := by
  refine Silent.ask.bind fun _ => (Silent.forM fun _ => ?_).bind fun _ => Silent.change.bind fun _ =>
    Silent.change.bind fun _ => Silent.ask.bind fun _ => .modified fun m => ?_
  · exact Silent.ask.bind fun _ => (Silent.forM fun _ => .change).bind fun _ => .change
  · dsimp only
    split <;> rfl

end Builder

namespace Lower
open Builder
variable {α β : Type}
variable {loc : Location} {slot val dest : ValueId}

def mistakeOf : Except LowerError α → List (String × Option String)
  | .ok _ => []
  | .error e => [(e.message, e.identifier?)]

def Notes (x : Lower α) (tells : α → List Diagnostic → Prop) : Prop :=
  ∀ s result after, x.run s = .ok (result, after) → ∃ more,
    after.module.report = more.foldl Report.add s.module.report ∧ Diagnostic.mistakes more = mistakeOf result ∧
      ∀ value, result = .ok value → tells value more

def Reports (x : Lower α) : Prop := Notes x fun _ more => more = []

namespace Notes
variable {x : Lower α} {tells : α → List Diagnostic → Prop} {last : β → List Diagnostic → Prop}
variable {s t : Lowering} {res : Except LowerError α}

theorem mistakes (notes : Notes x tells) (ran : x.run s = .ok (res, t)) :
    t.module.report.mistakes = s.module.report.mistakes ++ mistakeOf res := by
  obtain ⟨more, eq, errors, _⟩ := notes s res t ran
  rw [Report.mistakes, eq, ← errors, Report.diagnostics_addAll]
  simp [Diagnostic.mistakes, Report.mistakes]

theorem errorCount (notes : Notes x tells) (ran : x.run s = .ok (res, t)) :
    t.module.report.errorCount = s.module.report.errorCount + (mistakeOf res).length := by
  obtain ⟨more, eq, errors, _⟩ := notes s res t ran
  rw [eq, Report.errorCount_addAll, errors]

theorem counted (notes : Notes x tells) (ran : x.run s = .ok (res, t)) (counted : s.module.report.Counted) :
    t.module.report.Counted := by
  obtain ⟨more, eq, _⟩ := notes s res t ran
  exact eq ▸ counted.addAll

theorem quiet (eq : t.module.report = s.module.report) (isOk : mistakeOf res = [])
    (h : ∀ val, res = .ok val → tells val []) : ∃ more,
      t.module.report = more.foldl Report.add s.module.report ∧ Diagnostic.mistakes more = mistakeOf res ∧
        ∀ val, res = .ok val → tells val more :=
  ⟨[], eq, isOk.symm, h⟩

theorem give {val : α} (h : tells val []) : Notes (Pure.pure val : Lower α) tells := by
  intro s res t ran
  cases ran
  refine quiet rfl rfl fun other eq => ?_
  cases eq
  exact h

theorem pure {val : α} : Reports (Pure.pure val : Lower α) := give rfl

theorem build {action : Builder α} (silent : Silent action) : Reports (Lower.build action) := by
  intro s res t ran
  obtain ⟨⟨val, m⟩, acted, built⟩ := bind_eq_ok.1 (show (action s.module >>= _) = _ from ran)
  cases built
  exact quiet (silent s.module val m acted) rfl fun _ _ => rfl

private theorem chain {next : α → Lower β} (first : Notes x tells)
    (second : ∀ val more, tells val more → Notes (next val) fun res more' => last res (more ++ more')) :
    Notes (x >>= next) last := by
  intro s res t ran
  rcases bind_run ran with ⟨val, mid, ran1, ran2⟩ | ⟨e, ran1, eq⟩
  · obtain ⟨more, eq1, errors1, told⟩ := first s _ mid ran1
    obtain ⟨more', eq2, errors2, told'⟩ := second val more (told val rfl) mid res t ran2
    refine ⟨more ++ more', by rw [eq2, eq1, List.foldl_append], ?_, told'⟩
    have append : Diagnostic.mistakes (more ++ more') = Diagnostic.mistakes more ++ Diagnostic.mistakes more' := by
      simp [Diagnostic.mistakes]
    rw [append, errors1, errors2]
    rfl
  · obtain ⟨more, eq1, errors1, _⟩ := first s _ t ran1
    subst eq
    exact ⟨more, eq1, errors1, nofun⟩

theorem get {next : Lowering → Lower α} (each : ∀ s, Notes (next s) tells) : Notes (MonadState.get >>= next) tells := by
  intro s res t ran
  rw [get_bind_run] at ran
  exact each s s res t ran

theorem fail {e : LowerError} : Notes (Lower.fail e : Lower α) tells := by
  intro s res t ran
  cases ran
  exact ⟨[_], rfl, rfl, nofun⟩

theorem between {enter leave : Lowering → Lowering} (notes : Notes x tells)
    (entering : ∀ s, (enter s).module.report = s.module.report)
    (leaving : ∀ s, (leave s).module.report = s.module.report) : Notes (Lower.between enter leave x) tells := by
  intro s res t ran
  obtain ⟨mid, acted, eq⟩ := between_run ran
  rw [eq, leaving, ← entering s]
  exact notes _ res mid acted

theorem withContext (notes : Notes x tells) : Notes (Lower.withContext loc x) tells :=
  notes.between (fun _ => rfl) fun _ => rfl

theorem withScope (notes : Notes x tells) : Notes (Lower.withScope x) tells :=
  notes.between (fun _ => rfl) fun _ => rfl

theorem withLoop {dests : LoopTargets} (notes : Notes x tells) : Notes (Lower.withLoop dests x) tells :=
  notes.between (fun _ => rfl) fun _ => rfl

private theorem weaken (notes : Notes x tells) : Notes x fun _ _ => True := by
  intro s res t ran
  obtain ⟨more, eq, errors, _⟩ := notes s res t ran
  exact ⟨more, eq, errors, fun _ _ => trivial⟩

theorem caught {next : Except LowerError α → Lower β} (notes : Notes x tells)
    (tl : ∀ hit s res t, (next hit).run s = .ok (res, t) →
      t.module.report = s.module.report ∧ mistakeOf res = mistakeOf hit) :
    Notes (ExceptT.lift x.run >>= next) fun _ _ => True := by
  intro s res t ran
  obtain ⟨hit, mid, acted, followed⟩ := lift_bind_run ran
  obtain ⟨eq, same'⟩ := tl hit mid res t followed
  obtain ⟨more, eq1, errors1, _⟩ := notes s hit mid acted
  exact ⟨more, by rw [eq, eq1], by rw [same', errors1], fun _ _ => trivial⟩

theorem bind {next : α → Lower β} (first : Notes x fun _ more => more = []) (second : ∀ val, Notes (next val) last) :
    Notes (x >>= next) last := by
  apply chain first
  rintro val _ rfl
  exact second val

theorem after {action : Builder α} {next : α → Lower β} (silent : Silent action)
    (second : ∀ val, Notes (next val) last) : Notes (Lower.build action >>= next) last :=
  (build silent).bind second

theorem forM {items : List α} {each : α → Lower PUnit} (reports : ∀ item, Reports (each item)) :
    Reports (items.forM each) := by
  induction items with
  | nil => exact pure
  | cons item tl ih => exact (reports item).bind fun _ => ih

end Notes

private theorem targetOf_reports : Reports (targetOf loc slot) := by
  apply Notes.bind (.build .ask)
  intro k
  split
  · exact .pure
  · exact .fail

private theorem integerOf_reports : Reports (integerOf loc val) := by
  refine Notes.bind (.build valueOf_silent) fun val => Notes.bind (.build .ask) fun ty => ?_
  split
  · exact .pure
  · exact .fail

private theorem toBool_silent : Silent (toBool val) := by
  apply Silent.bind .ask
  intro ty
  split
  · exact .pure
  · exact addValue_silent.bind fun _ => icmp_silent

private theorem conditionOf_reports : Reports (conditionOf loc val) := by
  refine Notes.bind (.build valueOf_silent) fun val => Notes.bind (.build .ask) fun ty => ?_
  split
  · exact .build toBool_silent
  · exact .fail

private theorem checkIntegerSlot_reports : Reports (checkIntegerSlot loc slot) := by
  apply Notes.bind (.build .ask)
  intro ty
  dsimp only
  split
  · exact .pure
  · exact .fail

private theorem unary_silent {op : UnaryOp} : Silent (unary op val) := by
  apply Silent.bind .ask
  intro ty
  cases op with
  | plus => exact .pure
  | minus => exact addValue_silent.bind fun _ => binary_silent
  | logicalNot => exact addValue_silent.bind fun _ => icmp_silent
  | bitNot => exact addValue_silent.bind fun _ => binary_silent

private theorem logicBranch_silent {op : LogicOp} {lhs rhsBlock join : ValueId} :
    Silent (logicBranch op lhs rhsBlock join) := by
  cases op with
  | and => exact branch_silent.bind fun _ => .pure
  | or => exact branch_silent.bind fun _ => .pure

private theorem newBlock_reports {n : Option String} : Reports (newBlock n) := by
  refine Notes.bind (.get fun s => ?_) fun fn => .build createBlock_silent
  split
  · exact .pure
  · exact .build .fault

private theorem jumpUnlessTerminated_reports : Reports (jumpUnlessTerminated dest) := by
  apply Notes.bind (.build (.get fun _ => .lift))
  intro terminated
  split
  · exact .pure
  · exact .after jump_silent fun _ => .pure

private theorem continueUnreachable_reports : Reports continueUnreachable :=
  newBlock_reports.bind fun _ => .build setInsertPoint_silent

private theorem leave_reports : Reports (do
    let _ ← build (Builder.jump dest)
    continueUnreachable) :=
  .after jump_silent fun _ => continueUnreachable_reports

mutual
/-- Lowering an expression gives no warning. -/
theorem expr_reports (e : Expr) : Reports (expr e) := by
  cases e with
  | int val note => exact .withContext (.build addValue_silent)
  | char val note => exact .withContext (.build addValue_silent)
  | string val note => exact .withContext (.build addValue_silent)
  | ident n note =>
    refine .withContext (.get fun s => ?_)
    split
    · exact .pure
    · exact .fail
  | unary op arg note =>
    exact .withContext ((expr_reports arg).bind fun _ => integerOf_reports.bind fun _ => .build unary_silent)
  | binary op left right note =>
    apply Notes.withContext
    cases op with
    | assign base =>
      cases base with
      | none =>
        exact (expr_reports left).bind fun _ => targetOf_reports.bind fun _ => (expr_reports right).bind fun _ =>
          .build assign_silent
      | some base =>
        exact (expr_reports left).bind fun _ => targetOf_reports.bind fun _ => checkIntegerSlot_reports.bind fun _ =>
          (expr_reports right).bind fun _ => integerOf_reports.bind fun _ => .after binary_silent fun _ =>
            .build assign_silent
    | logic op =>
      refine .after alloca_silent fun slot => (expr_reports left).bind fun _ =>
        conditionOf_reports.bind fun lhs => .after store_silent fun _ => newBlock_reports.bind fun _ =>
          newBlock_reports.bind fun _ => .after logicBranch_silent fun _ => ?_
      exact .after setInsertPoint_silent fun _ => (expr_reports right).bind fun _ =>
        conditionOf_reports.bind fun rhs => .after store_silent fun _ =>
          .after jump_silent fun _ => .after setInsertPoint_silent fun _ => .build load_silent
    | compare op =>
      exact (expr_reports left).bind fun _ => integerOf_reports.bind fun _ => (expr_reports right).bind fun _ =>
        integerOf_reports.bind fun _ => .build icmp_silent
    | arith op =>
      exact (expr_reports left).bind fun _ => integerOf_reports.bind fun _ => (expr_reports right).bind fun _ =>
        integerOf_reports.bind fun _ => .build binary_silent
  | call function arguments note =>
    refine .withContext (.get fun s => ?_)
    split
    · exact .fail
    · exact (exprs_reports arguments).bind fun _ => .build call_silent
termination_by structural e

theorem exprs_reports (es : List Expr) : Reports (exprs es) := by
  cases es with
  | nil => exact .pure
  | cons e tl => exact (expr_reports e).bind fun _ => (exprs_reports tl).bind fun _ => .pure
termination_by structural es
end

private theorem localVar_reports (d : Decl) : Reports (localVar d) := by
  refine .withContext (.after alloca_silent fun slot => ?_)
  cases d.initializer with
  | none => exact .build (.modified fun _ => rfl)
  | some initial =>
    exact (expr_reports initial).bind fun _ => .after assign_silent fun _ =>
      .build (.modified fun _ => rfl)

private theorem ret_reports (val : Option Expr) : Reports (ret val) := by
  apply Notes.get
  intro s
  cases s.module.current with
  | none => exact .build .fault
  | some st =>
    have left : Reports (leaveBy st.exit) := by
      cases st.exit with
      | none => exact continueUnreachable_reports
      | some exit => exact leave_reports
    cases val with
    | none => exact left
    | some e =>
      refine (expr_reports e).bind fun res => Notes.bind (.build ?_) fun _ => left
      split
      · exact assign_silent
      · exact valueOf_silent

def Warns (places : List Location) (found : List Stretch) (more : List Diagnostic) : Prop :=
  found.map (·.location) = places ∧ more = places.map .unreachable

theorem Warns.append {places places' : List Location} {found found' : List Stretch} {more more' : List Diagnostic}
    (first : Warns places found more) (second : Warns places' found' more') :
    Warns (places ++ places') (found ++ found') (more ++ more') := by
  obtain ⟨rfl, rfl⟩ := first
  obtain ⟨rfl, rfl⟩ := second
  exact ⟨List.map_append, (List.map_append).symm⟩

private theorem reportWarning_notes : Notes (withContext loc (build (Builder.reportWarning "unreachable code")))
    fun _ more => more = [.unreachable loc] := by
  intro s res t ran
  cases ran
  exact ⟨_, rfl, rfl, fun _ _ => rfl⟩

theorem Notes.plain {x : Lower Unit} (reports : Reports x) : Notes (do x; return []) (Warns []) :=
  reports.bind fun _ => .give ⟨rfl, rfl⟩

theorem Warns.done {places : List Location} {found : List Stretch} {more : List Diagnostic}
    (warns : Warns places found more) : Warns places found (more ++ []) := by
  rwa [List.append_nil]

mutual
/-- Lowering a statement warns of the places in it that cannot be reached. -/
theorem stretches_notes (st : Stmt) : Notes (stretches st) (Warns st.unreachable) := by
  cases st with
  | expr val loc => exact Notes.plain (.withContext ((expr_reports val).bind fun _ => .pure))
  | compound body loc =>
    exact .withContext (newBlock_reports.bind fun _ => jumpUnlessTerminated_reports.bind fun _ =>
      .after setInsertPoint_silent fun _ => .withScope (stretchesIn_notes body))
  | declare decls loc => exact Notes.plain (.withContext (.forM localVar_reports))
  | ifElse cond thenStmt elseStmt loc =>
    cases elseStmt with
    | none =>
      refine .withContext ((expr_reports cond).bind fun _ => conditionOf_reports.bind fun _ =>
        newBlock_reports.bind fun _ => newBlock_reports.bind fun _ => .after branch_silent fun _ => ?_)
      exact .after setInsertPoint_silent fun _ => (stretches_notes thenStmt).chain fun _ _ warns =>
        jumpUnlessTerminated_reports.bind fun _ => .after setInsertPoint_silent fun _ => .give warns.done
    | some elseStmt =>
      refine .withContext ((expr_reports cond).bind fun _ => conditionOf_reports.bind fun _ =>
        newBlock_reports.bind fun _ => newBlock_reports.bind fun _ => newBlock_reports.bind fun _ =>
          .after branch_silent fun _ => ?_)
      refine .after setInsertPoint_silent fun _ => (stretches_notes thenStmt).chain fun found more warns =>
        jumpUnlessTerminated_reports.bind fun _ => .after setInsertPoint_silent fun _ => ?_
      exact (stretches_notes elseStmt).chain fun others more' warns' => jumpUnlessTerminated_reports.bind fun _ =>
        .after setInsertPoint_silent fun _ => .give (warns.append warns'.done)
  | whileDo cond body loc =>
    refine .withContext (newBlock_reports.bind fun _ => newBlock_reports.bind fun _ => newBlock_reports.bind fun _ =>
      jumpUnlessTerminated_reports.bind fun _ => .after setInsertPoint_silent fun _ => ?_)
    refine (expr_reports cond).bind fun _ => conditionOf_reports.bind fun _ =>
      .after branch_silent fun _ => .after setInsertPoint_silent fun _ => ?_
    exact (stretches_notes body).withLoop.chain fun _ _ warns => jumpUnlessTerminated_reports.bind fun _ =>
      .after setInsertPoint_silent fun _ => .give warns.done
  | breakLoop loc =>
    refine Notes.plain (.withContext (.get fun s => ?_))
    split
    · exact .fail
    · exact leave_reports
  | continueLoop loc =>
    refine Notes.plain (.withContext (.get fun s => ?_))
    split
    · exact .fail
    · exact leave_reports
  | ret val loc => exact Notes.plain (.withContext (ret_reports val))
  | empty loc => exact Notes.plain (.withContext (.pure))
termination_by structural st

theorem stretchesIn_notes (body : List Stmt) {jumped warned : Bool} : Notes (stretchesIn jumped warned body)
    (Warns (if warned then Stmt.nestedUnreachable body else
      if jumped then (body.head?.map Stmt.location).toList ++ Stmt.nestedUnreachable body else Stmt.unreachableIn body)) := by
  cases body with
  | nil => cases warned <;> cases jumped <;> exact .give ⟨rfl, rfl⟩
  | cons st tl =>
    have lowered : ∀ {warned places} {mark : Lowering → List Stretch}, (∀ t, (mark t).map (·.location) = places) →
        Notes (do
          let inner ← stretches st
          let later ← stretchesIn (jumped || st.jumps) warned tl
          let t ← get
          return mark t ++ inner ++ later) fun found more => Warns (places ++ (st.unreachable ++
            if warned then Stmt.nestedUnreachable tl else if jumped || st.jumps then
              (tl.head?.map Stmt.location).toList ++ Stmt.nestedUnreachable tl else Stmt.unreachableIn tl))
            found (places.map .unreachable ++ more) := by
      intro warned places mark marks
      refine (stretches_notes st).chain fun inner more warns => (stretchesIn_notes tl).chain fun later more' warns' =>
        .get fun t => .give ?_
      rw [List.append_assoc (mark t)]
      exact Warns.append ⟨marks t, rfl⟩ (warns.append warns'.done)
    rw [stretchesIn]
    refine .get fun s => ?_
    cases warned with
    | true =>
      simp only [Bool.not_true, Bool.and_false, Bool.false_eq_true, if_false, Bool.or_false]
      exact lowered fun _ => rfl
    | false =>
      cases jumped with
      | true =>
        refine reportWarning_notes.chain ?_
        rintro _ _ rfl
        exact lowered fun _ => rfl
      | false =>
        simp only [Bool.false_and, Bool.false_eq_true, if_false, Bool.or_false]
        exact lowered fun _ => rfl
termination_by structural body
end

private theorem outermostStretches_notes (body : Stmt) : Notes (outermostStretches body) (Warns body.unreachable) := by
  cases body with
  | compound body loc => exact stretchesIn_notes body
  | _ => exact stretches_notes _

private theorem paramSlot_reports {param : Param} {arg : ValueId} : Reports (paramSlot param arg) :=
  .after alloca_silent fun _ => .after store_silent fun _ => .build (.modified fun _ => rfl)

private theorem returnSlot_reports {ty : Ty} : Reports (returnSlot ty) := by
  unfold returnSlot
  split
  · exact .pure
  · exact .after alloca_silent fun _ => .bind (.build (.modified fun _ => rfl)) fun _ => .pure

theorem bodyStretches_notes {fn : ValueId} {f : FuncDef} : Notes (bodyStretches fn f) (Warns f.body.unreachable) := by
  refine .after createBlock_silent fun entry => .after setInsertPoint_silent fun _ =>
    (Notes.build .ask).bind fun _ => (Notes.forM fun _ => paramSlot_reports).bind fun _ =>
      returnSlot_reports.bind fun slot => ?_
  refine .after createBlock_silent fun exit => .bind (.build (.modified fun _ => rfl)) fun _ =>
    .after createBlock_silent fun body => .after jump_silent fun _ =>
      .after setInsertPoint_silent fun _ => (outermostStretches_notes f.body).chain fun found more warns => ?_
  refine jumpUnlessTerminated_reports.bind fun _ => (Notes.build .change).bind fun _ =>
    .after setInsertPoint_silent fun _ => Notes.bind (.build ?_) fun _ =>
      .after insertInst_silent fun _ => .give warns.done
  cases slot with
  | none => exact .pure
  | some v => exact load_silent.bind fun _ => .pure

private theorem function_notes (f : FuncDef) : Notes (function f) fun _ _ => True := by
  have lowered : Notes (do
      let fn ← build (Builder.createFunction f.name f.ty (f.params.map (·.name)))
      build (Builder.declareGlobal f.name fn)
      let res ← ExceptT.lift (withScope (functionBody fn f)).run
      build Builder.endFunction
      modify fun s => { s with loops := [] }
      settleFunction fn res) fun _ _ => True := by
    refine .after createFunction_silent fun fn => .bind (.build (.modified fun _ => rfl)) fun _ => ?_
    have body : Notes (functionBody fn f) fun _ _ => True := by
      rw [functionBody_eq_stretches, map_eq_pure_bind]
      exact bodyStretches_notes.chain fun _ _ _ => .give trivial
    apply Notes.caught body.withScope
    intro hit s res t ran
    obtain ⟨_, m, ended, ran⟩ := build_bind_run ran
    obtain rfl := Builder.modify_ok.1 ended
    cases hit with
    | ok val =>
      cases ran
      exact ⟨rfl, rfl⟩
    | error e =>
      obtain ⟨_, m, gone, thrown⟩ := build_bind_run (show ((build (Builder.removeFunction fn) >>= fun _ =>
        throw e : Lower Unit)).run _ = _ from ran)
      cases thrown
      have silent := removeFunction_silent _ _ _ gone
      exact ⟨silent, rfl⟩
  refine .withContext (.get fun s => ?_)
  dsimp only
  split
  · exact Notes.fail.bind fun _ => lowered
  · exact lowered

private theorem initialValue_reports (e : Expr) : Reports (initialValue e) := by
  have folded : Reports (foldedValue e) := by
    unfold foldedValue
    split
    · rw [map_eq_pure_bind]
      exact .after addValue_silent fun _ => .pure
    · exact .pure
  unfold initialValue
  split
  · rw [map_eq_pure_bind]
    exact .after addValue_silent fun _ => .pure
  · exact folded

private theorem global_reports (d : Decl) : Reports (global d) := by
  have made : ∀ initial, Reports (do
      let global ← build (Builder.createGlobal d.name d.ty.unqualified initial)
      build (Builder.declareGlobal d.name global)) := fun initial =>
    .after createGlobal_silent fun _ => .build (.modified fun _ => rfl)
  apply Notes.withContext
  cases d.initializer with
  | none => exact made none
  | some e =>
    refine (initialValue_reports e).bind fun initial => ?_
    cases initial with
    | none => exact Notes.fail.bind fun _ => made _
    | some val => exact made _

theorem item_notes (i : Item) : Notes (item i) fun _ _ => True := by
  cases i with
  | func f => exact function_notes f
  | global d => exact (global_reports d).weaken

end Lower

theorem Lowering.outcomes_counted {s t : Lowering} {items : List Item} {results : List (Except LowerError Unit)}
    (done : s.outcomes items = .ok (results, t)) (counted : s.module.report.Counted) :
    t.module.report.Counted := by
  induction items generalizing s results with
  | nil =>
    cases done
    exact counted
  | cons i rest ih =>
    obtain ⟨⟨result, middle⟩, ran, next⟩ := bind_eq_ok.1 done
    obtain ⟨⟨others, last⟩, followed, eq⟩ := bind_eq_ok.1 next
    cases eq
    exact ih followed ((Lower.item_notes i).counted ran counted)

end Midend
