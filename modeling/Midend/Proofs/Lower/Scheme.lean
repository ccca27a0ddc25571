import Midend.Proofs.Lower.Outcome
import Midend.Proofs.Lower.Stretches

/-! One traversal of lowering for all that lowering keeps to. A scheme says what holds at the points of
lowering and how points follow each other. Its laws are about single steps of the builder, and a scheme
that has them is kept by the lowering of every expression and every statement. -/
namespace Midend
open List Graph

mutual
/-- The calls in an expression: the name of the function and the number of arguments. -/
def Expr.calls : Expr → List (String × Nat)
  | .binary _ left right _ => left.calls ++ right.calls
  | .unary _ operand _ => operand.calls
  | .call function arguments _ => (function, arguments.length) :: Expr.callsIn arguments
  | _ => []
termination_by structural e => e

def Expr.callsIn : List Expr → List (String × Nat)
  | [] => []
  | e :: rest => e.calls ++ Expr.callsIn rest
termination_by structural es => es
end

mutual
def Stmt.decls : Stmt → List Decl
  | .compound body _ => Stmt.declsIn body
  | .declare decls _ => decls
  | .ifElse _ thenStmt none _ => thenStmt.decls
  | .ifElse _ thenStmt (some elseStmt) _ => thenStmt.decls ++ elseStmt.decls
  | .whileDo _ body _ => body.decls
  | _ => []
termination_by structural s => s

def Stmt.declsIn : List Stmt → List Decl
  | [] => []
  | s :: rest => s.decls ++ Stmt.declsIn rest
termination_by structural ss => ss
end

mutual
def Stmt.exprs : Stmt → List Expr
  | .expr value _ => [value]
  | .compound body _ => Stmt.exprsIn body
  | .declare decls _ => decls.filterMap (·.initializer)
  | .ifElse condition thenStmt none _ => condition :: thenStmt.exprs
  | .ifElse condition thenStmt (some elseStmt) _ => condition :: (thenStmt.exprs ++ elseStmt.exprs)
  | .whileDo condition body _ => condition :: body.exprs
  | .ret value _ => value.toList
  | _ => []
termination_by structural s => s

def Stmt.exprsIn : List Stmt → List Expr
  | [] => []
  | s :: rest => s.exprs ++ Stmt.exprsIn rest
termination_by structural ss => ss
end

namespace Lowering

def within (s : Lowering) (location : Location) : Lowering :=
  { s with module.contexts := location :: s.module.contexts }

def outside (s : Lowering) : Lowering := { s with module.contexts := s.module.contexts.tail }

end Lowering

namespace Lower
variable {α β : Type}

inductive Purpose where
  | any
  | loaded
  | integer
  | truth
  | number
  | place
  | address
  | cell
  | callee (count : Nat)

inductive Purpose.Serves : Purpose → Purpose → Prop where
  | integer : Serves .integer .number
  | truth : Serves .truth .any
  | address : Serves .address .place
  | cell : Serves .cell .place

structure Scheme where
  Point : Type
  function : FunctionState
  state : Point → Lowering
  here : Point → ValueId
  safe : Prop
  Broken : Point → Lowering → Prop
  Fit : Purpose → Point → ValueId → Prop
  Along : Point → Point → Prop
  Forked : Point → Point → ValueId → Prop
  Over : Point → Point → List ValueId → Prop
  Left : Point → Point → Lowering → List ValueId → List ValueId → Prop
  Aim : Point → Point → ValueId → Prop
  Leads : Point → ValueId → ValueId → Prop
  Lost : Graph → ValueId → Prop
  Sealed : Graph → Stretch → Prop
  Sized : Ty → Prop
  Fits : String → Nat → Prop

namespace Scheme
variable (S : Scheme)

def Steps (p : S.Point) (x : Lower α) (gives : α → S.Point → Prop) : Prop :=
  Finishes S.safe x (S.state p) (S.Broken p) fun value after =>
    ∃ q, after = S.state q ∧ S.Along p q ∧ gives value q

def Yields (p : S.Point) (x : Lower ValueId) (use : Purpose) : Prop :=
  S.Steps p x fun v q => S.Fit use q v

def Does (p : S.Point) (x : Lower α) (gives : α → Graph → ValueId → Prop) : Prop :=
  Finishes S.safe x (S.state p) (S.Broken p) fun value after =>
    ∃ q, after = S.state q ∧ S.Over p q [] ∧ gives value (S.state q).module.graph (S.here q)

def Goes (p : S.Point) (x : Lower Unit) : Prop := S.Does p x fun _ _ _ => True

def size (p : S.Point) : Nat := (S.state p).module.graph.values.size

def Told (low : Nat) (found : List Stretch) (g : Graph) : Prop := ∀ m ∈ found, low < m.first ∧ S.Sealed g m

def Tells (low : Nat) (p : S.Point) (x : Lower (List Stretch)) (jumps : Prop) : Prop :=
  S.Does p x fun found g here => S.Told low found g ∧ (jumps → low < g.values.size ∧ S.Lost g here)

structure Computes : Prop where
  refl : ∀ p, S.Along p p
  trans : ∀ {p q r}, S.Along p q → S.Along q r → S.Along p r
  broken : ∀ {p q s}, S.Along p q → S.Broken q s → S.Broken p s
  reported : ∀ {p} report, S.Broken p { S.state p with module.report := report }
  stays : ∀ {p q use v}, S.Along p q → S.Fit use p v → S.Fit use q v
  serves : ∀ {p use use' v}, use.Serves use' → S.Fit use p v → S.Fit use' p v
  inside : ∀ {p use v}, S.Fit use p v → v.index < (S.state p).module.graph.values.size
  context : ∀ p location, ∃ q, S.state q = (S.state p).within location ∧
    (∀ s, S.Broken q s → S.Broken p s.outside) ∧
    (∀ r, S.Along q r → ∃ r', S.state r' = (S.state r).outside ∧ S.Along p r' ∧
      ∀ use v, S.Fit use r v → S.Fit use r' v) ∧
    ∀ r, S.Over q r [] → ∃ r', S.state r' = (S.state r).outside ∧ S.Over p r' [] ∧ S.here r' = S.here r
  name : ∀ {p name v}, (S.state p).module.symbols.lookup name = some v → S.Fit .any p v
  address : ∀ {p v kind}, S.Fit .any p v → (S.state p).module.graph.kind? v = some kind → kind.isAddress →
    S.Fit .address p v
  integer : ∀ {p v ty}, S.Fit .loaded p v → (S.state p).module.graph.ty? v = some ty → ty.isInteger →
    S.Fit .integer p v
  number : ∀ {p v ty}, S.Fit .address p v → (S.state p).module.graph.ty? v = some ty →
    ty.pointee?.any Ty.isInteger → S.Fit .number p v
  callee : ∀ {p name f count}, (S.state p).module.findFunction name = some f → S.Fits name count →
    S.Fit (.callee count) p f
  constInt : ∀ {p number ty}, S.Yields p (build (Builder.constInt number ty)) .any
  constStr : ∀ {p text}, S.Yields p (build (Builder.constStr text)) .any
  valueOf : ∀ {p v}, S.Fit .any p v → S.Yields p (build (Builder.valueOf v)) .loaded
  toBool : ∀ {p v}, S.Fit .integer p v → S.Yields p (build (toBool v)) .truth
  unary : ∀ {p op v}, S.Fit .integer p v → S.Yields p (build (unary op v)) .any
  binary : ∀ {p lhs rhs} {op : ArithOp} {left right}, S.Fit .number p lhs → S.Fit .number p rhs →
    S.Yields p (build (Builder.binary (op.opcode left right) lhs rhs)) .any
  icmp : ∀ {p predicate lhs rhs}, S.Fit .number p lhs → S.Fit .number p rhs →
    S.Yields p (build (Builder.icmp predicate lhs rhs)) .any
  assign : ∀ {p slot v}, S.Fit .place p slot → S.Fit .any p v → S.Yields p (build (Builder.assign slot v)) .any
  call : ∀ {p f args}, S.Fit (.callee args.length) p f → (∀ v ∈ args, S.Fit .any p v) →
    S.Yields p (build (Builder.call f args)) .any
  bool : S.Sized .bool
  alloca : ∀ {p ty name}, S.Sized ty → S.Yields p (build (Builder.alloca ty name)) .cell
  store : ∀ {p v slot}, S.Fit .any p v → S.Fit .cell p slot →
    S.Steps p (build (Builder.store v slot)) fun _ _ => True
  load : ∀ {p slot}, S.Fit .cell p slot → S.Yields p (build (Builder.load slot)) .any
  fork : ∀ {p v} {op : LogicOp} {next : ValueId → Lower ValueId} {final}, S.Fit .truth p v →
    (∀ q block, S.Forked p q block → Finishes S.safe (next block) (S.state q) (S.Broken p) final) →
    Finishes S.safe (do
      let rhsBlock ← newBlock (some (logicNames op).1)
      let endBlock ← newBlock (some (logicNames op).2)
      build (logicBranch op v rhsBlock endBlock)
      build (Builder.setInsertPoint rhsBlock)
      next endBlock) (S.state p) (S.Broken p) final
  forked : ∀ {p q block}, S.Forked p q block →
    (∀ v, S.Fit .cell p v → S.Fit .cell q v) ∧ ∀ s, S.Broken q s → S.Broken p s
  join : ∀ {p q r block} {next : Lower ValueId} {final}, S.Forked p q block → S.Along q r →
    (∀ t, S.Along p t → Finishes S.safe next (S.state t) (S.Broken p) final) →
    Finishes S.safe (do
      let _ ← build (Builder.jump block)
      build (Builder.setInsertPoint block)
      next) (S.state r) (S.Broken p) final

structure Controls : Prop extends S.Computes where
  past : ∀ {p q}, S.Along p q → S.Over p q []
  overs : ∀ {p q r pending later}, S.Over p q pending → S.Over q r later → S.Over p r (pending ++ later)
  undone : ∀ {p q s pending}, S.Over p q pending → S.Broken q s → S.Broken p s
  waits : ∀ {p q pending}, S.Over p q pending → ∀ block ∈ pending, S.Aim p q block
  aims : ∀ {p q r pending block}, S.Aim p q block → S.Over q r pending → S.Aim p r block
  leads : ∀ {p q}, S.Along p q → S.Leads q (S.here p) (S.here q)
  block : ∀ {p name}, Finishes S.safe (newBlock name) (S.state p) (S.Broken p) fun block after =>
    ∃ q, after = S.state q ∧ S.Over p q [block] ∧ ∀ use v, S.Fit use p v → S.Fit use q v
  branch : ∀ {p q v a b pending}, S.Over p q pending → S.Fit .truth q v → S.Aim p q a → S.Aim p q b →
    Finishes S.safe (build (Builder.branch v a b)) (S.state q) (S.Broken p) fun _ after =>
      S.Left p q after [a, b] pending
  jump : ∀ {p q block pending}, S.Over p q pending → S.Aim p q block →
    Finishes S.safe (jumpUnlessTerminated block) (S.state q) (S.Broken p) fun _ after =>
      S.Left p q after [block] pending
  enter : ∀ {p q after targets block later}, S.Left p q after targets (block :: later) →
    (∃ target ∈ targets, target ∈ block :: later ∨ S.Leads q target block) →
    Finishes S.safe (build (Builder.setInsertPoint block)) after (S.Broken p) fun _ last =>
      ∃ r, last = S.state r ∧ S.here r = block ∧ S.Over p r later ∧ (∀ other, S.Aim p q other → S.Aim p r other) ∧
        (∀ start, S.Leads q start (S.here q) → ∀ target ∈ targets, S.Leads r start target) ∧
        ∀ m, S.Sealed after.module.graph m → S.Sealed (S.state r).module.graph m
  leave : ∀ {p block}, S.Aim p p block → S.Does p (do
    let _ ← build (Builder.jump block)
    continueUnreachable) fun _ g here => S.size p < g.values.size ∧ S.Lost g here
  grown : ∀ {p q pending}, S.Over p q pending → S.size p ≤ S.size q
  seals : ∀ {p q location}, S.Lost (S.state p).module.graph (S.here p) → S.Over p q [] →
    S.Sealed (S.state q).module.graph ⟨location, S.size p, S.size q⟩
  kept : ∀ {p q r pending later m}, S.Over p q pending → S.size p < m.first → S.Sealed (S.state q).module.graph m →
    S.Over q r later → S.Sealed (S.state r).module.graph m
  ended : ∀ {p q r after block later m}, S.Aim p q block → S.size q < m.first → S.Sealed (S.state r).module.graph m →
    S.Left p r after [block] later → S.Sealed after.module.graph m
  loop : ∀ {p q cond stop}, S.Over p q [stop] → S.Aim p q cond → S.Leads q cond stop →
    ∃ inner, S.state inner = { S.state q with loops := ⟨cond, stop⟩ :: (S.state q).loops } ∧
      (∀ s, S.Broken inner s → S.Broken p { s with loops := s.loops.tail }) ∧
      ∀ r, S.Over inner r [] → ∃ r', S.state r' = { S.state r with loops := (S.state r).loops.tail } ∧
        S.Over p r' [stop] ∧ S.Aim p r' cond ∧ S.Leads r' cond stop
  scope : ∀ p, ∃ inner, S.state inner = { S.state p with module.symbols := (S.state p).module.symbols.push } ∧
    (∀ s, S.Broken inner s → S.Broken p { s with module.symbols := s.module.symbols.pop }) ∧
    ∀ r, S.Over inner r [] → ∃ r', S.state r' = { S.state r with module.symbols := (S.state r).module.symbols.pop } ∧
      S.Over p r' [] ∧ S.here r' = S.here r
  current : ∀ p, (S.state p).module.current = some S.function
  exit : ∃ exit, S.function.exit = some exit ∧ ∀ p, S.Aim p p exit
  result : ∀ p, ∀ slot ∈ S.function.returnSlot, S.Fit .place p slot
  loops : ∀ {p targets}, targets ∈ (S.state p).loops → S.Aim p p targets.continueBlock ∧ S.Aim p p targets.breakBlock
  declare : ∀ {p name slot}, S.Fit .cell p slot → S.Goes p (build (Builder.declare name slot))
  warning : ∀ {p text}, S.Goes p (build (Builder.reportWarning text))

structure Sensible (decls : List Decl) (exprs : List Expr) : Prop where
  sized : ∀ d ∈ decls, S.Sized d.ty
  fits : ∀ e ∈ exprs, ∀ call ∈ e.calls, S.Fits call.1 call.2

variable {S} {p q : S.Point} {loc : Location} {v : ValueId}

theorem Sensible.mono {decls decls' : List Decl} {exprs exprs' : List Expr} (sensible : S.Sensible decls exprs)
    (fewer : decls' ⊆ decls) (fewer' : exprs' ⊆ exprs) : S.Sensible decls' exprs' :=
  ⟨fun d mem => sensible.sized d (fewer mem), fun e mem => sensible.fits e (fewer' mem)⟩

namespace Computes

section
variable (laws : S.Computes)
variable {gives : α → S.Point → Prop} {left right : Lower ValueId} {leftAt rightAt : Location}
include laws

theorem pure {val : α} (h : gives val p) : S.Steps p (Pure.pure val) gives :=
  .pure ⟨p, rfl, laws.refl p, h⟩

theorem fail {e : LowerError} : S.Steps p (Lower.fail e) gives :=
  .fail fun report => laws.reported report

theorem bind {x : Lower α} {next : α → Lower β} {last : β → S.Point → Prop} (first : S.Steps p x gives)
    (second : ∀ val q, S.Along p q → gives val q → S.Steps q (next val) last) : S.Steps p (x >>= next) last := by
  refine Finishes.bind first ?_
  rintro val _ ⟨q, rfl, along, h⟩
  refine (second val q along h).mono (fun _ => laws.broken along) ?_
  rintro res _ ⟨r, rfl, along', holds'⟩
  exact ⟨r, rfl, laws.trans along along', holds'⟩

theorem withContext {x : Lower ValueId} {use : Purpose} (yields : ∀ p, S.Yields p x use) :
    S.Yields p (Lower.withContext loc x) use := by
  obtain ⟨q, inner, broken, along, _⟩ := laws.context p loc
  have finishes := yields q
  rw [Yields, Steps, inner] at finishes
  refine .between (finishes.mono broken ?_)
  rintro v _ ⟨r, rfl, passed, fit⟩
  obtain ⟨r', outer, passed', fits⟩ := along r passed
  exact ⟨r', outer.symm, passed', fits use v fit⟩

theorem targetOf (fit : S.Fit .any p v) :
    Finishes S.safe (Lower.targetOf loc v) (S.state p) (S.Broken p) fun slot t =>
      slot = v ∧ t = S.state p ∧ S.Fit .address p v := by
  obtain ⟨k, hit⟩ := exists_kind? (laws.inside fit)
  refine .ask (kind_eq_ok.2 hit) ?_
  split
  next isAddress => exact .pure ⟨rfl, rfl, laws.address fit hit isAddress⟩
  next => exact .fail fun report => laws.reported report

theorem checkIntegerSlot (fit : S.Fit .address p v) :
    Finishes S.safe (Lower.checkIntegerSlot loc v) (S.state p) (S.Broken p) fun _ t =>
      t = S.state p ∧ S.Fit .number p v := by
  obtain ⟨ty, isTy⟩ := exists_ty? (laws.inside fit)
  refine .ask (ty_eq_ok.2 isTy) ?_
  dsimp only
  split
  next isInteger => exact .pure ⟨rfl, laws.number fit isTy isInteger⟩
  next => exact .fail fun report => laws.reported report

/-- A value is loaded, and what comes next depends on whether it is an integer. -/
theorem loaded {next : ValueId → Lower ValueId} {bad : Ty → LowerError} {use : Purpose}
    (fit : S.Fit .any p v) (tl : ∀ v q, S.Fit .integer q v → S.Yields q (next v) use) :
    S.Yields p (do
      let val ← build (Builder.valueOf v)
      let ty ← build (Builder.ask (·.ty val))
      if ty.isInteger then next val else Lower.fail (bad ty)) use := by
  refine laws.bind (laws.valueOf fit) ?_
  intro val q _ loaded
  obtain ⟨ty, isTy⟩ := exists_ty? (laws.inside loaded)
  refine Finishes.ask (ty_eq_ok.2 isTy) ?_
  split
  next isInteger => exact tl val q (laws.integer loaded isTy isInteger)
  next => exact laws.fail

theorem integerOf (fit : S.Fit .any p v) : S.Yields p (Lower.integerOf loc v) .integer :=
  laws.loaded fit fun _ _ isInteger => laws.pure isInteger

theorem conditionOf (fit : S.Fit .any p v) : S.Yields p (Lower.conditionOf loc v) .truth :=
  laws.loaded fit fun _ _ isInteger => laws.toBool isInteger

theorem integers {next : ValueId → ValueId → Lower ValueId} (lefts : ∀ p, S.Yields p left .any)
    (rights : ∀ p, S.Yields p right .any)
    (tl : ∀ q lhs rhs, S.Fit .number q lhs → S.Fit .number q rhs → S.Yields q (next lhs rhs) .any) :
    S.Yields p (do
      let lhs ← Lower.integerOf leftAt (← left)
      let rhs ← Lower.integerOf rightAt (← right)
      next lhs rhs) .any := by
  refine laws.bind (lefts p) ?_
  intro _ _ _ fit1
  refine laws.bind (laws.integerOf fit1) ?_
  intro lhs _ _ isLhs
  refine laws.bind (rights _) ?_
  intro _ _ along3 fit3
  refine laws.bind (laws.integerOf fit3) ?_
  intro rhs q along4 isRhs
  exact tl q lhs rhs (laws.serves .integer (laws.stays along4 (laws.stays along3 isLhs))) (laws.serves .integer isRhs)

theorem logic {op : LogicOp} (lefts : ∀ p, S.Yields p left .any) (rights : ∀ p, S.Yields p right .any) :
    S.Yields p (do
      let slot ← build (Builder.alloca .bool none)
      let lhs ← Lower.conditionOf leftAt (← left)
      let _ ← build (Builder.store lhs slot)
      let rhsBlock ← newBlock (some (logicNames op).1)
      let endBlock ← newBlock (some (logicNames op).2)
      build (logicBranch op lhs rhsBlock endBlock)
      build (Builder.setInsertPoint rhsBlock)
      let rhs ← Lower.conditionOf rightAt (← right)
      let _ ← build (Builder.store rhs slot)
      let _ ← build (Builder.jump endBlock)
      build (Builder.setInsertPoint endBlock)
      build (Builder.load slot)) .any := by
  refine laws.bind (laws.alloca laws.bool) ?_
  intro slot _ _ cell1
  refine laws.bind (lefts _) ?_
  intro _ _ along2 fit2
  refine laws.bind (laws.conditionOf fit2) ?_
  intro lhs _ along3 isLhs
  have cell3 := laws.stays along3 (laws.stays along2 cell1)
  refine laws.bind (laws.store (laws.serves .truth isLhs) cell3) ?_
  intro _ p4 along4 _
  have cell4 := laws.stays along4 cell3
  refine laws.fork (laws.stays along4 isLhs) ?_
  intro p5 endBlock forked
  obtain ⟨cells, broken⟩ := laws.forked forked
  -- The right operand is lowered from the point after the fork, so the rest is a step from there.
  have answers : S.Steps p5 (do
      let rhs ← Lower.conditionOf rightAt (← right)
      build (Builder.store rhs slot)) fun _ _ => True := by
    refine laws.bind (rights p5) ?_
    intro _ _ along6 fit6
    refine laws.bind (laws.conditionOf fit6) ?_
    intro rhs _ along7 isRhs
    exact laws.store (laws.serves .truth isRhs) (laws.stays along7 (laws.stays along6 (cells slot cell4)))
  have joins : Finishes S.safe (do
      let _ ← (do
        let rhs ← Lower.conditionOf rightAt (← right)
        build (Builder.store rhs slot))
      let _ ← build (Builder.jump endBlock)
      build (Builder.setInsertPoint endBlock)
      build (Builder.load slot)) (S.state p5) (S.Broken p4) fun v t =>
        ∃ q, t = S.state q ∧ S.Along p4 q ∧ S.Fit .any q v := by
    refine Finishes.bind (Finishes.mono answers broken fun _ _ h => h) ?_
    rintro _ _ ⟨p8, rfl, along8, _⟩
    refine laws.join forked along8 ?_
    intro p9 along9
    refine (laws.load (laws.stays along9 cell4)).mono (fun _ => laws.broken along9) ?_
    rintro v _ ⟨q, rfl, along, fit⟩
    exact ⟨q, rfl, laws.trans along9 along, fit⟩
  simpa only [bind_assoc] using joins

end

mutual
/-- An expression does what a scheme says, by induction on the expression. -/
theorem expr (laws : S.Computes) (e : Expr) (fits : ∀ call ∈ e.calls, S.Fits call.1 call.2) {p : S.Point} :
    S.Yields p (Lower.expr e) .any := by
  cases e with
  | int val note => exact laws.withContext fun p => laws.constInt
  | char val note => exact laws.withContext fun p => laws.constInt
  | string val note => exact laws.withContext fun p => laws.constStr
  | ident n note =>
    refine laws.withContext fun p => Finishes.get ?_
    split
    next slot hit => exact laws.pure (laws.name hit)
    next => exact laws.fail
  | unary op arg note =>
    refine laws.withContext fun p => ?_
    refine laws.bind (laws.expr arg fits) ?_
    intro _ _ _ fit
    refine laws.bind (laws.integerOf fit) ?_
    intro _ _ _ isInteger
    exact laws.unary isInteger
  | binary op left right note =>
    have lefts : ∀ p, S.Yields p (Lower.expr left) .any := fun _ =>
      laws.expr left fun call mem => fits call (mem_append_left _ mem)
    have rights : ∀ p, S.Yields p (Lower.expr right) .any := fun _ =>
      laws.expr right fun call mem => fits call (mem_append_right _ mem)
    refine laws.withContext fun p => ?_
    cases op with
    | assign base =>
      cases base with
      | none =>
        refine laws.bind (lefts p) ?_
        intro slot q _ fit
        refine Finishes.bind (laws.targetOf fit) ?_
        rintro _ _ ⟨rfl, rfl, isAddress⟩
        refine laws.bind (rights q) ?_
        intro _ _ along fit'
        exact laws.assign (laws.serves .address (laws.stays along isAddress)) fit'
      | some base =>
        refine laws.bind (lefts p) ?_
        intro slot q _ fit
        refine Finishes.bind (laws.targetOf fit) ?_
        rintro _ _ ⟨rfl, rfl, isAddress⟩
        refine Finishes.bind (laws.checkIntegerSlot isAddress) ?_
        rintro _ _ ⟨rfl, isNumber⟩
        refine laws.bind (rights q) ?_
        intro _ _ along2 fit2
        refine laws.bind (laws.integerOf fit2) ?_
        intro _ _ along3 isInteger
        have along := laws.trans along2 along3
        refine laws.bind (laws.binary (laws.stays along isNumber) (laws.serves .integer isInteger)) ?_
        intro _ _ along4 res
        exact laws.assign (laws.serves .address (laws.stays along4 (laws.stays along isAddress))) res
    | logic op => exact laws.logic lefts rights
    | compare op => exact laws.integers lefts rights fun _ _ _ isLhs isRhs => laws.icmp isLhs isRhs
    | arith op => exact laws.integers lefts rights fun _ _ _ isLhs isRhs => laws.binary isLhs isRhs
  | call function arguments note =>
    refine laws.withContext fun p => Finishes.get ?_
    split
    next => exact laws.fail
    next callee hit =>
      have fit := laws.callee hit (fits _ mem_cons_self)
      refine laws.bind (laws.exprs arguments fun call mem => fits call (mem_cons_of_mem _ mem)) ?_
      intro values q along ⟨length, all⟩
      exact laws.call (length ▸ laws.stays along fit) all
termination_by structural e

theorem exprs (laws : S.Computes) (es : List Expr) (fits : ∀ call ∈ Expr.callsIn es, S.Fits call.1 call.2)
    {p : S.Point} : S.Steps p (Lower.exprs es) fun values q =>
      values.length = es.length ∧ ∀ v ∈ values, S.Fit .any q v := by
  cases es with
  | nil => exact laws.pure ⟨rfl, by simp⟩
  | cons e tl =>
    refine laws.bind (laws.expr e fun call mem => fits call (mem_append_left _ mem)) ?_
    intro val _ _ fit
    refine laws.bind (laws.exprs tl fun call mem => fits call (mem_append_right _ mem)) ?_
    intro values q along ⟨length, all⟩
    refine laws.pure ⟨by rw [length_cons, length, length_cons], ?_⟩
    intro v member
    rcases mem_cons.1 member with rfl | member
    · exact laws.stays along fit
    · exact all v member
termination_by structural es
end

end Computes

section
variable {low low' : Nat} {jumps : Prop}

theorem Told.mono {found : List Stretch} {g : Graph} (told : S.Told low found g) (le : low' ≤ low) :
    S.Told low' found g := fun m mem =>
  ⟨Nat.lt_of_le_of_lt le (told m mem).1, (told m mem).2⟩

theorem Does.bare {x : Lower Unit} (does : S.Does p x fun _ g here => jumps → low < g.values.size ∧ S.Lost g here) :
    S.Tells low p (do x; return []) jumps := by
  refine Finishes.bind does ?_
  rintro _ _ ⟨q, rfl, past, lost⟩
  exact .pure ⟨q, rfl, past, by simp [Told], lost⟩

theorem Goes.plain {x : Lower Unit} (goes : S.Goes p x) (stays : ¬ jumps) : S.Tells low p (do x; return []) jumps := by
  refine Does.bare (goes.mono (fun _ bad => bad) ?_)
  rintro _ _ ⟨q, rfl, past, _⟩
  exact ⟨q, rfl, past, fun jumps => absurd jumps stays⟩

theorem Does.away {x : Lower Unit} (does : S.Does p x fun _ g here => low < g.values.size ∧ S.Lost g here) :
    S.Tells low p (do x; return []) jumps := by
  refine Does.bare (does.mono (fun _ bad => bad) ?_)
  rintro _ _ ⟨q, rfl, past, lost⟩
  exact ⟨q, rfl, past, fun _ => lost⟩

end

namespace Controls
variable {x : Lower Unit} {gives : β → Graph → ValueId → Prop} {low : Nat} {jumps away : Prop}

section
variable (laws : S.Controls)
variable {later : List ValueId} {dest : ValueId}
include laws

theorem pass : S.Goes p (Pure.pure ()) :=
  .pure ⟨p, rfl, laws.past (laws.refl p), trivial⟩

theorem andThen {y : Lower β} (first : S.Goes p x) (second : ∀ q, S.Over p q [] → S.Does q y gives) :
    S.Does p (do x; y) gives := by
  refine Finishes.bind first ?_
  rintro _ _ ⟨q, rfl, past, _⟩
  refine (second q past).mono (fun _ => laws.undone past) ?_
  rintro _ _ ⟨r, rfl, over', h⟩
  exact ⟨r, rfl, laws.overs past over', h⟩

private theorem follow {x : Lower α} {next : α → Lower β} {fits : α → S.Point → Prop}
    (first : S.Steps p x fits) (second : ∀ val q, S.Along p q → fits val q → S.Does q (next val) gives) :
    S.Does p (x >>= next) gives := by
  refine Finishes.bind first ?_
  rintro val _ ⟨q, rfl, along, h⟩
  refine (second val q along h).mono (fun _ => laws.broken along) ?_
  rintro _ _ ⟨r, rfl, past, holds'⟩
  exact ⟨r, rfl, laws.overs (laws.past along) past, holds'⟩

theorem within {x : Lower β} (does : ∀ q, S.size q = S.size p → S.Does q x gives) :
    S.Does p (withContext loc x) gives := by
  obtain ⟨q, inner, broken, _, outer⟩ := laws.context p loc
  have finishes := does q (by rw [size, inner]; rfl)
  rw [Does, inner] at finishes
  refine .between (finishes.mono broken ?_)
  rintro _ _ ⟨r, rfl, past, h⟩
  obtain ⟨r', eq, over', here⟩ := outer r past
  refine ⟨r', eq.symm, over', ?_⟩
  rw [eq, here]
  exact h

theorem withScope {x : Lower β} (does : ∀ q, S.size q = S.size p → S.Does q x gives) :
    S.Does p (Lower.withScope x) gives := by
  obtain ⟨q, inner, broken, outer⟩ := laws.scope p
  have finishes := does q (by rw [size, inner]; rfl)
  rw [Does, inner] at finishes
  refine .between (finishes.mono broken ?_)
  rintro _ _ ⟨r, rfl, past, h⟩
  obtain ⟨r', eq, over', here⟩ := outer r past
  refine ⟨r', eq.symm, over', ?_⟩
  rw [eq, here]
  exact h

theorem localVar {d : Decl} (sensible : S.Sensible [d] d.initializer.toList) : S.Goes p (Lower.localVar d) := by
  refine laws.within fun p _ => ?_
  refine laws.follow (laws.alloca (sensible.sized d mem_cons_self)) ?_
  intro slot q _ cell
  cases initial : d.initializer with
  | none => exact laws.declare cell
  | some e =>
    refine laws.follow (laws.expr e (sensible.fits e (by rw [initial]; exact mem_cons_self))) ?_
    intro val _ along fit
    have cell2 := laws.stays along cell
    refine laws.follow (laws.assign (laws.serves .cell cell2) fit) ?_
    intro _ _ along3 _
    exact laws.declare (laws.stays along3 cell2)

private theorem localVars {decls : List Decl}
    (sensible : S.Sensible decls (decls.filterMap (·.initializer))) : S.Goes p (decls.forM Lower.localVar) := by
  induction decls generalizing p with
  | nil => exact laws.pass
  | cons d tl ih =>
    refine laws.andThen (laws.localVar (sensible.mono (by simp) ?_)) fun q _ => ih (sensible.mono (by simp) ?_)
    · intro e isInitial
      exact mem_filterMap.2 ⟨d, mem_cons_self, Option.mem_toList.1 isInitial⟩
    · intro e isIn
      obtain ⟨other, mem, isInitial⟩ := mem_filterMap.1 isIn
      exact mem_filterMap.2 ⟨other, mem_cons_of_mem _ mem, isInitial⟩

private theorem quit (le : low ≤ S.size p) (aim : S.Aim p p dest) : S.Does p (do
      let _ ← build (Builder.jump dest)
      continueUnreachable) fun _ g here => low < g.values.size ∧ S.Lost g here := by
  refine (laws.leave aim).mono (fun _ bad => bad) ?_
  rintro _ _ ⟨q, rfl, past, more, lost⟩
  exact ⟨q, rfl, past, Nat.lt_of_le_of_lt le more, lost⟩

theorem ret {val : Option Expr} (sensible : S.Sensible [] val.toList) (le : low ≤ S.size p) :
    S.Does p (Lower.ret val) fun _ g here => low < g.values.size ∧ S.Lost g here := by
  obtain ⟨exit, isExit, aim⟩ := laws.exit
  refine Finishes.get ?_
  rw [laws.current]
  dsimp only
  rw [isExit]
  cases val with
  | none => exact laws.quit le (aim p)
  | some e =>
    show S.Does p (Lower.expr e >>= _) fun _ g here => low < g.values.size ∧ S.Lost g here
    refine laws.follow (laws.expr e (sensible.fits e mem_cons_self)) ?_
    intro res q along fit
    have stored : S.Steps q (build (keepResult S.function.returnSlot res)) fun _ _ => True := by
      cases isSlot : S.function.returnSlot with
      | none =>
        refine (laws.valueOf fit).mono (fun _ bad => bad) ?_
        rintro _ _ ⟨r, eq, along, _⟩
        exact ⟨r, eq, along, trivial⟩
      | some slot =>
        refine (laws.assign (laws.result q slot isSlot) fit).mono (fun _ bad => bad) ?_
        rintro _ _ ⟨r, eq, along, _⟩
        exact ⟨r, eq, along, trivial⟩
    refine laws.follow stored fun _ r along' _ => laws.quit ?_ (aim r)
    exact Nat.le_trans le (laws.grown (laws.past (laws.trans along along')))

private theorem beyond {x : Lower α} {next : α → Lower β} {pending : List ValueId}
    {done : α → Lowering → Prop} {final : β → Lowering → Prop} (past : S.Over p q pending)
    (first : Finishes S.safe x (S.state q) (S.Broken q) done)
    (second : ∀ val t, done val t → Finishes S.safe (next val) t (S.Broken p) final) :
    Finishes S.safe (x >>= next) (S.state q) (S.Broken p) final :=
  (first.mono (fun _ => laws.undone past) fun _ _ h => h).bind second

/-- A part of a statement is lowered, and its end leads to a block. -/
theorem part {x : Lower (List Stretch)} {next : List Stretch → Lower β} {final : β → Lowering → Prop}
    (past : S.Over p q later) (aim : S.Aim p q dest) (tells : S.Tells (S.size q) q x jumps)
    (tl : ∀ found r t, S.Over q r [] → S.Left p r t [dest] later → S.Told (S.size q) found t.module.graph →
      Finishes S.safe (next found) t (S.Broken p) final) :
    Finishes S.safe (do
      let found ← x
      jumpUnlessTerminated dest
      next found) (S.state q) (S.Broken p) final := by
  refine laws.beyond past tells ?_
  rintro found _ ⟨r, rfl, over', told, _⟩
  have way := laws.overs past over'
  rw [append_nil] at way
  refine (laws.jump way (laws.aims aim over')).bind fun _ t left => tl found r t over' left fun m mem => ?_
  obtain ⟨low, isSealed⟩ := told m mem
  exact ⟨low, laws.ended aim low isSealed left⟩

private theorem enterTarget {t : Lowering} {dests : List ValueId} (left : S.Left p q t dests (dest :: later))
    (goes : ∃ b ∈ dests, b ∈ dest :: later) :
    Finishes S.safe (build (Builder.setInsertPoint dest)) t (S.Broken p) fun _ last =>
      ∃ r, last = S.state r ∧ S.Over p r later ∧
        ∀ m, S.Sealed t.module.graph m → S.Sealed (S.state r).module.graph m := by
  obtain ⟨b, isTarget, waits⟩ := goes
  refine (laws.enter left ⟨b, isTarget, .inl waits⟩).mono (fun _ bad => bad) ?_
  rintro _ _ ⟨r, rfl, _, past, _, _, same⟩
  exact ⟨r, rfl, past, same⟩

end

section Branches
variable {cond : Expr} {thenStmt elseStmt : Lower (List Stretch)} {jumps' : Prop}

theorem tested (laws : S.Controls) {next : ValueId → Lower β} (fits : ∀ call ∈ cond.calls, S.Fits call.1 call.2)
    (tl : ∀ v q, S.Along p q → S.Fit .truth q v → S.Does q (next v) gives) :
    S.Does p (do
      let val ← conditionOf cond.location (← Lower.expr cond)
      next val) gives := by
  refine laws.follow (laws.expr cond fits) ?_
  intro hit q along fit
  refine laws.follow (laws.conditionOf fit) ?_
  intro val r along' isTruth
  exact tl val r (laws.trans along along') isTruth

private theorem ifThen (laws : S.Controls) (fits : ∀ call ∈ cond.calls, S.Fits call.1 call.2)
    (thens : ∀ p, S.Tells (S.size p) p thenStmt jumps) (stays : ¬ away) (le : low ≤ S.size p) :
    S.Tells low p (do
      let val ← conditionOf cond.location (← Lower.expr cond)
      let thenBlock ← newBlock (some "if.then")
      let join ← newBlock (some "if.end")
      let _ ← build (Builder.branch val thenBlock join)
      build (Builder.setInsertPoint thenBlock)
      let found ← thenStmt
      jumpUnlessTerminated join
      build (Builder.setInsertPoint join)
      return found) away := by
  refine laws.tested fits fun val p along isTruth => ?_
  refine laws.block.bind ?_
  rintro thenBlock _ ⟨p1, rfl, over1, fit1⟩
  refine laws.beyond over1 laws.block ?_
  rintro join _ ⟨p2, rfl, over2, fit2⟩
  have bs := laws.overs over1 over2
  have waits := laws.waits bs
  refine (laws.branch bs (fit2 _ _ (fit1 _ _ isTruth)) (waits thenBlock (by simp)) (waits join (by simp))).bind ?_
  intro _ s3 left3
  refine (laws.enterTarget left3 (by simp)).bind ?_
  rintro _ _ ⟨p4, rfl, over4, _⟩
  refine laws.part over4 (laws.waits over4 join (by simp)) (thens p4) ?_
  intro found p5 s5 _ left5 told5
  refine (laws.enterTarget left5 (by simp)).bind ?_
  rintro _ _ ⟨p6, rfl, over6, same6⟩
  have late : low ≤ S.size p4 := Nat.le_trans le (laws.grown (laws.overs (laws.past along) over4))
  exact .pure ⟨p6, rfl, over6, Told.mono (fun m mem => (told5 m mem).imp_right (same6 m)) late, fun goes => absurd goes stays⟩

theorem ifElse (laws : S.Controls) (fits : ∀ call ∈ cond.calls, S.Fits call.1 call.2)
    (thens : ∀ p, S.Tells (S.size p) p thenStmt jumps) (elses : ∀ p, S.Tells (S.size p) p elseStmt jumps')
    (stays : ¬ away) (le : low ≤ S.size p) :
    S.Tells low p (do
      let val ← conditionOf cond.location (← Lower.expr cond)
      let thenBlock ← newBlock (some "if.then")
      let elseBlock ← newBlock (some "if.else")
      let join ← newBlock (some "if.end")
      let _ ← build (Builder.branch val thenBlock elseBlock)
      build (Builder.setInsertPoint thenBlock)
      let found ← thenStmt
      jumpUnlessTerminated join
      build (Builder.setInsertPoint elseBlock)
      let others ← elseStmt
      jumpUnlessTerminated join
      build (Builder.setInsertPoint join)
      return found ++ others) away := by
  refine laws.tested fits fun val p along isTruth => ?_
  refine laws.block.bind ?_
  rintro thenBlock _ ⟨p1, rfl, over1, fit1⟩
  refine laws.beyond over1 laws.block ?_
  rintro elseBlock _ ⟨p2, rfl, over2, fit2⟩
  have two := laws.overs over1 over2
  refine laws.beyond two laws.block ?_
  rintro join _ ⟨p3, rfl, over3, fit3⟩
  have bs := laws.overs two over3
  have waits := laws.waits bs
  refine (laws.branch bs (fit3 _ _ (fit2 _ _ (fit1 _ _ isTruth))) (waits thenBlock (by simp))
    (waits elseBlock (by simp))).bind ?_
  intro _ s4 left4
  refine (laws.enterTarget left4 (by simp)).bind ?_
  rintro _ _ ⟨p5, rfl, over5, _⟩
  have aim5 := laws.waits over5 join (by simp)
  refine laws.part over5 aim5 (thens p5) ?_
  intro found p6 s6 _ left6 told6
  refine (laws.enterTarget left6 (by simp)).bind ?_
  rintro _ _ ⟨p7, rfl, over7, same7⟩
  refine laws.part over7 (laws.waits over7 join (by simp)) (elses p7) ?_
  intro others p8 s8 over8 left8 told8
  refine (laws.enterTarget left8 (by simp)).bind ?_
  rintro _ _ ⟨p9, rfl, over9, same9⟩
  refine .pure ⟨p9, rfl, over9, fun m mem => ?_, fun goes => absurd goes stays⟩
  have late := laws.grown over5
  have early := Nat.le_trans le (laws.grown (laws.past along))
  rcases mem_append.1 mem with mem | mem
  · -- The second branch leads to blocks that are older than the stretches of the first one, or new.
    obtain ⟨began, isSealed⟩ := told6 m mem
    have still := laws.kept over7 (Nat.lt_of_le_of_lt late began) (same7 m isSealed) over8
    exact ⟨by omega, same9 m (laws.ended aim5 began still left8)⟩
  · obtain ⟨began, isSealed⟩ := told8 m mem
    have grown := laws.grown over7
    exact ⟨by omega, same9 m isSealed⟩

/-- A loop does what a scheme says if its body does. -/
theorem whileDo (laws : S.Controls) {body : Lower (List Stretch)} (fits : ∀ call ∈ cond.calls, S.Fits call.1 call.2)
    (tells : ∀ p, S.Tells (S.size p) p body jumps) (stays : ¬ away) (le : low ≤ S.size p) :
    S.Tells low p (do
      let condBlock ← newBlock (some "while.cond")
      let bodyBlock ← newBlock (some "while.body")
      let join ← newBlock (some "while.end")
      jumpUnlessTerminated condBlock
      build (Builder.setInsertPoint condBlock)
      let val ← conditionOf cond.location (← Lower.expr cond)
      let _ ← build (Builder.branch val bodyBlock join)
      build (Builder.setInsertPoint bodyBlock)
      let found ← withLoop ⟨condBlock, join⟩ body
      jumpUnlessTerminated condBlock
      build (Builder.setInsertPoint join)
      return found) away := by
  refine laws.block.bind ?_
  rintro condBlock _ ⟨p1, rfl, over1, _⟩
  refine laws.beyond over1 laws.block ?_
  rintro bodyBlock _ ⟨p2, rfl, over2, _⟩
  have two := laws.overs over1 over2
  refine laws.beyond two laws.block ?_
  rintro join _ ⟨p3, rfl, over3, _⟩
  have bs := laws.overs two over3
  have condAim := laws.waits bs condBlock (by simp)
  refine (laws.jump bs condAim).bind ?_
  intro _ s4 left4
  refine (laws.enter left4 ⟨condBlock, by simp, by simp⟩).bind ?_
  rintro _ _ ⟨p5, rfl, isCond, over5, aims5, _⟩
  refine laws.beyond over5 (laws.expr cond fits) ?_
  rintro hit _ ⟨p6, rfl, along6, fit6⟩
  have over6 := laws.overs over5 (laws.past along6)
  refine laws.beyond over6 (laws.conditionOf fit6) ?_
  rintro val _ ⟨p7, rfl, along7, isTruth⟩
  have tested := laws.overs over6 (laws.past along7)
  refine (laws.branch tested isTruth (laws.waits tested bodyBlock (by simp)) (laws.waits tested join (by simp))).bind ?_
  intro _ s8 left8
  refine (laws.enter left8 ⟨bodyBlock, by simp, by simp⟩).bind ?_
  rintro _ _ ⟨p9, rfl, _, over9, aims9, reaches9, _⟩
  -- Control gets from the condition to the block after the loop, so that `continue` does not lose it.
  have leads : S.Leads p9 condBlock join :=
    reaches9 condBlock (isCond ▸ laws.leads (laws.trans along6 along7)) join (by simp)
  have condAim9 := aims9 condBlock (laws.aims (aims5 condBlock condAim) (laws.past (laws.trans along6 along7)))
  obtain ⟨inner, isInner, broken, outer⟩ := laws.loop over9 condAim9 leads
  have looped : Finishes S.safe (withLoop ⟨condBlock, join⟩ body) (S.state p9) (S.Broken p) fun found t =>
      ∃ q, t = S.state q ∧ (S.Over p q [join] ∧ S.Aim p q condBlock ∧ S.Leads q condBlock join) ∧
        S.Told (S.size p9) found (S.state q).module.graph := by
    have finishes := tells inner
    rw [Tells, Does, isInner, size, isInner] at finishes
    refine .between (finishes.mono broken ?_)
    rintro found _ ⟨r, rfl, past, told, _⟩
    obtain ⟨r', eq, tl⟩ := outer r past
    refine ⟨r', eq.symm, tl, ?_⟩
    rw [eq]
    exact told
  refine looped.bind ?_
  rintro found _ ⟨p10, rfl, ⟨over10, aim10, leads10⟩, told10⟩
  refine (laws.jump over10 aim10).bind ?_
  intro _ s11 left11
  refine (laws.enter left11 ⟨condBlock, by simp, .inr leads10⟩).bind ?_
  rintro _ _ ⟨p12, rfl, _, over12, _, _, same12⟩
  refine .pure ⟨p12, rfl, over12, Told.mono (fun m mem => ?_) (Nat.le_trans le (laws.grown over9)), fun goes => absurd goes stays⟩
  obtain ⟨began, isSealed⟩ := told10 m mem
  exact ⟨began, same12 m (laws.ended condAim9 began isSealed left11)⟩

end Branches

theorem compound (laws : S.Controls) {x : Lower (List Stretch)} (tells : ∀ p, S.Tells (S.size p) p x False)
    (stays : ¬ away) (le : low ≤ S.size p) : S.Tells low p (do
      let b ← newBlock none
      jumpUnlessTerminated b
      build (Builder.setInsertPoint b)
      Lower.withScope x) away := by
  refine laws.block.bind ?_
  rintro b _ ⟨p1, rfl, over1, _⟩
  refine (laws.jump over1 (laws.waits over1 b (by simp))).bind ?_
  intro _ s2 left2
  refine (laws.enterTarget left2 (by simp)).bind ?_
  rintro _ _ ⟨p3, rfl, over3, _⟩
  refine (laws.withScope fun q eq => eq ▸ tells q).mono (fun _ => laws.undone over3) ?_
  rintro _ _ ⟨p4, rfl, over4, told, _⟩
  exact ⟨p4, rfl, laws.overs over3 over4, told.mono (Nat.le_trans le (laws.grown over3)), fun goes => absurd goes stays⟩

mutual
theorem stmt (laws : S.Controls) (st : Stmt) (sensible : S.Sensible st.decls st.exprs) {p : S.Point} {low : Nat}
    (le : low ≤ S.size p) : S.Tells low p (Lower.stretches st) (st.jumps = true) := by
  cases st with
  | expr val loc =>
    refine Goes.plain (laws.within fun p _ => ?_) nofun
    exact laws.follow (laws.expr val (sensible.fits val mem_cons_self)) fun _ _ _ _ => laws.pass
  | compound body loc =>
    refine laws.within fun q eq => laws.compound (fun p => ?_) nofun (eq ▸ le)
    exact laws.stmts body sensible (laws.past (laws.refl p)) nofun
  | declare decls loc => exact Goes.plain (laws.within fun p _ => laws.localVars sensible) nofun
  | ifElse cond thenStmt elseStmt loc =>
    cases elseStmt with
    | none =>
      have inner : S.Sensible thenStmt.decls thenStmt.exprs :=
        sensible.mono (List.Subset.refl _) (subset_cons_self _ _)
      exact laws.within fun q eq => laws.ifThen (sensible.fits cond mem_cons_self)
        (fun p => laws.stmt thenStmt inner (Nat.le_refl _)) nofun (eq ▸ le)
    | some elseStmt =>
      have first : S.Sensible thenStmt.decls thenStmt.exprs := sensible.mono (subset_append_left _ _)
        (List.Subset.trans (subset_append_left _ _) (subset_cons_self _ _))
      have second : S.Sensible elseStmt.decls elseStmt.exprs := sensible.mono (subset_append_right _ _)
        (List.Subset.trans (subset_append_right _ _) (subset_cons_self _ _))
      exact laws.within fun q eq => laws.ifElse (sensible.fits cond mem_cons_self)
        (fun p => laws.stmt thenStmt first (Nat.le_refl _)) (fun p => laws.stmt elseStmt second (Nat.le_refl _)) nofun
        (eq ▸ le)
  | whileDo cond body loc =>
    have inner : S.Sensible body.decls body.exprs := sensible.mono (List.Subset.refl _) (subset_cons_self _ _)
    exact laws.within fun q eq => laws.whileDo (sensible.fits cond mem_cons_self)
      (fun p => laws.stmt body inner (Nat.le_refl _)) nofun (eq ▸ le)
  | breakLoop loc =>
    refine Does.away (laws.within fun p eq => Finishes.get ?_)
    split
    next => exact .fail fun report => laws.reported report
    next dests hit => exact laws.quit (eq ▸ le) (laws.loops (mem_of_mem_head? hit)).2
  | continueLoop loc =>
    refine Does.away (laws.within fun p eq => Finishes.get ?_)
    split
    next => exact .fail fun report => laws.reported report
    next dests hit => exact laws.quit (eq ▸ le) (laws.loops (mem_of_mem_head? hit)).1
  | ret val loc => exact Does.away (laws.within fun q eq => laws.ret sensible (eq ▸ le))
  | empty loc => exact Goes.plain (laws.within fun p _ => laws.pass) nofun
termination_by structural st

theorem stmts (laws : S.Controls) (body : List Stmt) (sensible : S.Sensible (Stmt.declsIn body) (Stmt.exprsIn body))
    {jumped warned : Bool} {o p : S.Point} (begun : S.Over o p [])
    (dead : (jumped && !warned) = true → S.size o < S.size p ∧ S.Lost (S.state p).module.graph (S.here p)) :
    S.Tells (S.size o) p (Lower.stretchesIn jumped warned body) False := by
  cases body with
  | nil => exact .pure ⟨p, rfl, laws.past (laws.refl p), by simp [Told], False.elim⟩
  | cons st tl =>
    have first : S.Sensible st.decls st.exprs :=
      sensible.mono (subset_append_left _ _) (subset_append_left _ _)
    have others : S.Sensible (Stmt.declsIn tl) (Stmt.exprsIn tl) :=
      sensible.mono (subset_append_right _ _) (subset_append_right _ _)
    have lowered : ∀ q, S.Over p q [] → S.Tells (S.size o) q (do
        let inner ← Lower.stretches st
        let later ← Lower.stretchesIn (jumped || st.jumps) (warned || (jumped && !warned)) tl
        let t ← get
        return (if (jumped && !warned) = true then [⟨st.location, S.size p, t.module.graph.values.size⟩] else []) ++
          inner ++ later) False := by
      intro q past
      have base := laws.overs begun past
      refine Finishes.bind (laws.stmt st first (Nat.le_refl (S.size q))) ?_
      rintro inner _ ⟨r, rfl, over1, told1, lost⟩
      refine laws.beyond over1 (laws.stmts tl others (laws.overs base over1) ?_) ?_
      · cases jumped with
        | false =>
          intro isDead
          obtain ⟨more, lost⟩ := lost (by simp_all)
          exact ⟨Nat.lt_of_le_of_lt (laws.grown base) more, lost⟩
        | true => cases warned <;> nofun
      rintro later _ ⟨t, rfl, over2, told2, _⟩
      refine Finishes.get (.pure ⟨t, rfl, laws.overs over1 over2, fun m mem => ?_, False.elim⟩)
      rcases mem_append.1 mem with mem | mem
      · rcases mem_append.1 mem with mem | mem
        · cases warn : jumped && !warned with
          | false => simp [warn] at mem
          | true =>
            obtain rfl := mem_singleton.1 (by simpa only [warn, if_true] using mem)
            obtain ⟨more, lost⟩ := dead warn
            exact ⟨more, laws.seals lost (laws.overs past (laws.overs over1 over2))⟩
        · obtain ⟨began, isSealed⟩ := told1 m mem
          exact ⟨Nat.lt_of_le_of_lt (laws.grown base) began, laws.kept over1 began isSealed over2⟩
      · exact told2 m mem
    rw [Lower.stretchesIn]
    refine Finishes.get ?_
    dsimp only
    by_cases warn : (jumped && !warned) = true
    · rw [if_pos warn]
      exact laws.andThen (laws.within fun p _ => laws.warning) lowered
    · rw [if_neg warn]
      exact lowered p (laws.past (laws.refl p))
termination_by structural body
end

theorem outermost (laws : S.Controls) (body : Stmt) (sensible : S.Sensible body.decls body.exprs) :
    ∃ jumps, S.Tells (S.size p) p (Lower.outermostStretches body) jumps := by
  cases body with
  | compound body loc => exact ⟨False, laws.stmts body sensible (laws.past (laws.refl p)) nofun⟩
  | _ => exact ⟨_, laws.stmt _ sensible (Nat.le_refl _)⟩

end Controls
end Scheme
end Lower
end Midend
