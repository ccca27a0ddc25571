import Midend.Proofs.Meaning.Preserved

/-! Initial values of globals and of local variables. The value of a global is computed when it is
lowered, in 64 bits; that of a local variable is computed by the code of its declaration, at the
types of the literals. The two differ where the narrower type loses something that the declared
type would keep. -/
namespace Midend
open Builder Graph
open BitVec

namespace Expr

/-- Whether an expression is made of literals and unary operators, with the types of its parts. -/
def literal : Expr → Bool
  | .int _ note | .char _ note => note.ty.isInteger
  | .unary op operand note => operand.literal && decide (note.ty.Alike (unaryTy op operand.ty))
  | _ => false

/-- Whether no `!` is applied to something that is zero only at its type. -/
def exact : Expr → Bool
  | .unary op operand _ => operand.exact &&
    (op != .logicalNot || operand.fold?.all fun value => operand.ty.wrap value.toInt != 0 || value == 0)
  | _ => true

private theorem integral_of_literal (sc : Scope) : (e : Expr) → e.literal → e.integral sc
  | .int _ _, literal | .char _ _, literal => literal
  | .unary op arg note, literal => by
    simp only [Expr.literal, Bool.and_eq_true] at literal
    simp only [integral, Bool.and_eq_true]
    exact ⟨integral_of_literal sc arg literal.1, literal.2⟩

end Expr

section Words
variable {width : Nat} (x : Int64)

private theorem ofInt_toInt_eq_setWidth (narrow : width ≤ 64) : BitVec.ofInt width x.toInt = x.toBitVec.setWidth width := by
  rw [← truncate_ofInt narrow]
  exact congrArg (BitVec.setWidth width) (ofInt_toInt)

private theorem ofInt_toInt_neg (narrow : width ≤ 64) : BitVec.ofInt width (-x).toInt = BitVec.ofInt width (-x.toInt) := by
  rw [ofInt_neg, ofInt_toInt_eq_setWidth x narrow, ofInt_toInt_eq_setWidth _ narrow, Int64.toBitVec_neg,
    setWidth_neg_of_le narrow]

private theorem ofInt_toInt_not (narrow : width ≤ 64) :
    BitVec.ofInt width (~~~x).toInt = BitVec.ofInt width (-1 - x.toInt) := by
  have computed := Option.some.inj (compute?_bitNot width x.toInt)
  rw [← computed, ofInt_toInt_eq_setWidth x narrow, ofInt_toInt_eq_setWidth _ narrow, Int64.toBitVec_not,
    setWidth_not narrow, ofInt_neg]
  show _ = _ ^^^ -BitVec.ofNat width 1
  rw [neg_one_eq_allOnes, xor_allOnes]

end Words

namespace Ty
variable {ty : Ty} {x y : Int}

private theorem width_le (ty : Ty) : ty.width ≤ 64 := by
  unfold width bitWidth
  split <;> decide

private theorem wrap_eq_wrap_iff : ty.wrap x = ty.wrap y ↔ BitVec.ofInt ty.width x = BitVec.ofInt ty.width y := by
  rw [← (ty.holds_wrap x).inj (ty.holds_wrap y), ofInt_wrap, ofInt_wrap]

/-- A word is the same at a type of which it is part, and wherever the type changes the integer by a multiple of the number
of words. -/
private theorem ofInt_wrap_eq_iff {width : Nat} : BitVec.ofInt width (ty.wrap x) = BitVec.ofInt width x ↔
    width ≤ ty.width ∨ ((2 ^ width : Nat) : Int) ∣ ty.wrap x - x := by
  have divides : BitVec.ofInt width (ty.wrap x) = BitVec.ofInt width x ↔ ((2 ^ width : Nat) : Int) ∣ ty.wrap x - x := by
    rw [← toInt_inj, toInt_ofInt, toInt_ofInt, Int.bmod_eq_bmod_iff_bmod_sub_eq_zero, Int.dvd_iff_bmod_eq_zero]
  refine divides.trans ⟨.inr, ?_⟩
  rintro (narrower | divided)
  · rw [← divides, ← truncate_ofInt narrower, ofInt_wrap, truncate_ofInt narrower]
  · exact divided

end Ty

private theorem Expr.eval_literal : (e : Expr) → e.literal → e.exact →
    ∃ val, e.fold? = some val ∧ ∀ sc store, e.eval sc store = some (e.ty.wrap val.toInt)
  | .int val note, _, _ => ⟨val, rfl, fun sc store => by rw [eval]; rfl⟩
  | .char val note, _, _ => by
    refine ⟨Int64.ofNat val.toNat, rfl, fun sc store => ?_⟩
    rw [Int64.toInt_ofNat_of_lt (Nat.lt_of_lt_of_le val.toNat_lt (by decide)), eval]
    rfl
  | .unary op arg note, literal, isExact => by
    simp only [Expr.literal, Bool.and_eq_true, decide_eq_true_eq] at literal
    simp only [exact, Bool.and_eq_true] at isExact
    obtain ⟨val, folded, evaluated⟩ := eval_literal arg literal.1 isExact.1
    have wraps : note.ty.wrap = (unaryTy op arg.ty).wrap := literal.2.wrap
    rw [fold?, folded]
    show ∃ value' : Int64, _ = some value' ∧ ∀ sc store, _ = some (note.ty.wrap value'.toInt)
    rw [wraps]
    have evaluated : ∀ sc store, (unary op arg note).eval sc store =
        some (op.eval arg.ty (arg.ty.wrap val.toInt)) := by
      intro sc store
      rw [eval, evaluated]
      rfl
    cases op with
    | plus =>
      refine ⟨val, rfl, fun sc store => ?_⟩
      rw [evaluated]
      show _ = some (arg.ty.unqualified.wrap _)
      rw [Ty.wrap_unqualified]
      rfl
    | minus =>
      refine ⟨-val, rfl, fun sc store => ?_⟩
      rw [evaluated]
      show _ = some (arg.ty.unqualified.wrap _)
      rw [Ty.wrap_unqualified]
      refine congrArg some (Ty.wrap_eq_wrap_iff.2 ?_)
      rw [ofInt_toInt_neg val arg.ty.width_le, ofInt_neg, ofInt_neg, Ty.ofInt_wrap]
    | bitNot =>
      refine ⟨~~~val, rfl, fun sc store => ?_⟩
      rw [evaluated]
      show _ = some (arg.ty.unqualified.wrap _)
      rw [Ty.wrap_unqualified]
      refine congrArg some (Ty.wrap_eq_wrap_iff.2 ?_)
      rw [ofInt_toInt_not val arg.ty.width_le]
      simp only [Int.sub_eq_add_neg, ofInt_add, ofInt_neg, Ty.ofInt_wrap]
    | logicalNot =>
      refine ⟨if val = 0 then 1 else 0, rfl, fun sc store => ?_⟩
      rw [evaluated]
      refine congrArg some ?_
      by_cases isZero : val = 0
      · rw [if_pos isZero, isZero]
        show truth (arg.ty.wrap 0 == 0) = _
        rw [(Ty.Holds.zero arg.ty).wrap]
        show truth _ = Ty.bool.wrap _
        decide
      · have nonzero : arg.ty.wrap val.toInt ≠ 0 := by
          have either := isExact.2
          rw [folded] at either
          simpa [isZero] using either
        rw [if_neg isZero]
        show truth (arg.ty.wrap val.toInt == 0) = _
        rw [beq_false_of_ne nonzero]
        show truth _ = Ty.bool.wrap _
        decide

def Module.Starts (m : Module) (name : String) (value : Int64) : Prop :=
  ∃ global initial, m.symbols.lookup name = some global ∧ m.graph.kind? global = some (.global name) ∧
    m.graph.operandsOf global = [some initial] ∧ m.graph.kind? initial = some (.constInt value)

/-- Execution comes to a store into the slot of a variable that holds nothing so far, and puts something there. -/
def Graph.Initializes (g : Graph) (args : List Datum) (start : Machine) (name : String) (content : Datum) : Prop :=
  ∃ slot n m m', g.kind? slot = some (.inst ⟨.alloca, start.block, .alloca (some name)⟩) ∧
    g.Steps args n start m ∧ g.AtStore m slot ∧ m.memory slot = none ∧ g.Steps args 1 m m' ∧
    m'.memory slot = some content

namespace Lower

private theorem createGlobal_starts {m t : Module} {n : String} {ty : Ty} {initial global : ValueId}
    (valid : m.graph.Consistent) (into : initial.index < m.graph.values.size)
    (done : Builder.createGlobal n ty (some initial) m = .ok (global, t)) :
    t.graph.kind? global = some (.global n) ∧ t.graph.operandsOf global = [some initial] ∧
      t.graph.kind? initial = m.graph.kind? initial ∧
      t = { m with graph := t.graph, globals := m.globals ++ [global] } := by
  have run := addValue_bind_ok.1 done
  have added := valid.add_added (.global n) (.pointer ty) (some 1)
  obtain ⟨_, m1, adding, run⟩ := bind_ok.1 run
  obtain ⟨rewired, eq⟩ := addOperand_ok added.consistent adding
  have run := modify_bind_ok.1 run
  obtain ⟨rfl, rfl⟩ := pure_ok.1 run
  have other : initial ≠ (m.graph.add (.global n) (.pointer ty) (some 1)).1 := by
    rintro rfl
    rw [added.fresh] at into
    exact Nat.lt_irrefl _ into
  have nothing : m.graph.operandsOf (m.graph.add (.global n) (.pointer ty) (some 1)).1 = [] := by
    rw [added.fresh]
    exact operandsOf_nil_of_ge (Nat.le_refl _)
  refine ⟨(rewired.kind? _).trans ((added.kind? _).trans (if_pos rfl)), ?_, ?_, ?_⟩
  · rw [rewired.operandsOf, if_pos rfl, added.operandsOf, nothing]
    rfl
  · rw [rewired.kind?, added.kind?, if_neg other]
  · rw [eq]

section Global
variable {d : Decl} {e : Expr} {val : Int64} {s : Lowering} {broken : Lowering → Prop}

structure Holding (s : Lowering) (c : ValueId) (value : Int64) : Prop where
  consistent : s.module.graph.Consistent
  flat : s.module.symbols.inner = []
  kind : s.module.graph.kind? c = some (.constInt value)

private theorem initialValue_holding (ok : s.module.graph.Consistent) (flat : s.module.symbols.inner = [])
    (folded : e.fold? = some val) :
    Ends (initialValue e) s broken fun initial t => ∃ c, initial = some c ∧ Holding t c val := by
  unfold initialValue
  split
  next => cases folded
  next =>
    rw [folded]
    refine .map (.build fun v m done => ?_)
    obtain ⟨rfl, rfl⟩ := addValue_ok.1 done
    have add := ok.add_added (.constInt val) e.ty (some 0)
    exact ⟨_, rfl, add.consistent, flat, (add.kind? _).trans (if_pos rfl)⟩

/-- A global starts with the constant that it was given. -/
theorem Holding.starts {c : ValueId} (holding : Holding s c val) : Ends (do
      let global ← build (Builder.createGlobal d.name d.ty.unqualified (some c))
      build (Builder.declareGlobal d.name global)) s broken fun _ t => t.module.Starts d.name val := by
  have created : Ends (build (Builder.createGlobal d.name d.ty.unqualified (some c))) s broken fun global t =>
      t.module.graph.kind? global = some (.global d.name) ∧ t.module.graph.operandsOf global = [some c] ∧
        t.module.graph.kind? c = some (.constInt val) ∧ t.module.symbols.inner = [] := by
    refine .build fun global m done => ?_
    obtain ⟨isGlobal, ops, kept, eq⟩ :=
      createGlobal_starts holding.consistent (lt_of_kind? holding.kind) done
    refine ⟨isGlobal, ops, kept.trans holding.kind, ?_⟩
    rw [eq]
    exact holding.flat
  refine created.bind ?_
  intro global s1 ⟨isGlobal, ops, k, flat⟩
  refine .build fun _ m done => ?_
  obtain rfl := modify_ok.1 done
  refine ⟨global, c, ?_, isGlobal, ops, k⟩
  show (s1.module.symbols.inner.findSome? (·.lookup d.name)).or _ = _
  rw [flat]
  simp [ScopeTable.insertGlobal]

/-- A global with a literal as its initial value is made, and starts with the value of the literal in 64 bits. -/
private theorem global_starts {t : Lowering} {res : Except LowerError Unit} (valid : s.module.graph.Consistent)
    (flat : s.module.symbols.inner = []) (isInitial : d.initializer = some e) (folded : e.fold? = some val)
    (made : (global d).run s = .ok (res, t)) : res = .ok () ∧ t.module.Starts d.name val := by
  have starts : ∀ {s : Lowering}, s.module.graph.Consistent → s.module.symbols.inner = [] → Ends (defineGlobal d) s
      (fun _ => False) fun _ t => t.module.Starts d.name val := by
    intro s valid flat
    unfold defineGlobal
    rw [isInitial]
    refine (initialValue_holding valid flat folded).bind ?_
    rintro _ s1 ⟨c, rfl, holding⟩
    exact holding.starts
  unfold global withContext at made
  obtain ⟨mid, entered, eq⟩ := between_run made
  subst eq
  have path := @starts { s with module.contexts := d.location :: s.module.contexts } valid flat res mid entered
  cases res with
  | ok val => exact ⟨rfl, path⟩
  | error e => exact path.elim

end Global

end Lower

private theorem FuncDef.declared_scope (f : FuncDef) (ns : Bindings Variable) : (f.scope ns).declared = f.params.length := by
  have counted : ∀ (params : List Param) (sc : Scope),
      (params.foldl (fun sc param => sc.declare param.name param.ty) sc).declared =
        sc.declared + params.length := by
    intro params
    induction params with
    | nil => intro sc; rfl
    | cons param tl ih =>
      intro sc
      rw [List.foldl_cons, ih, List.length_cons]
      show sc.declared + 1 + tl.length = _
      omega
  rw [FuncDef.scope, counted]
  exact Nat.zero_add _

private theorem Lowering.Knows.initializes {s mid : Lowering} {outer : Outer} {f : FuncDef} {d : Decl} {e : Expr}
    {tl : List Stmt} {place place' : Location} {x : Int} {xs : List Int} {gs : String → Option Int}
    {memory : ValueId → Option Datum} (knows : s.Knows outer)
    (lowered : (Lower.function f).run s = .ok (.ok (), mid))
    (isBody : f.body = .compound (.declare [d] place :: tl) place') (isInitial : d.initializer = some e)
    (integer : d.ty.isInteger) (literal : e.literal) (evaluated : ∀ sc store, e.eval sc store = some x)
    (integers : f.params.all (·.ty.isInteger)) (h : List.Forall₂ (fun param x => param.ty.Holds x) f.params xs)
    (stored : mid.module.Stored (outer.item (.func f) (.ok ())).names gs memory) :
    ∃ fn s0, mid.module.findFunction f.name = some fn ∧ mid.module.graph.called fn memory = some s0 ∧
      mid.module.graph.Initializes (Param.words f.params xs) s0 d.name (d.ty.word x) := by
  obtain ⟨fn, c, realizes⟩ := knows.lowered lowered
  rw [← realizes.stored] at stored
  refine ⟨fn, ⟨c.entry, 0, fun _ => none, memory⟩, realizes.found, ?_, ?_⟩
  · rw [Graph.called, realizes.head]
    rfl
  rw [← realizes.graph]
  obtain ⟨n, m, p, q, steps, here, ready, performs, _⟩ := realizes.ready integers h stored
  have isIntegral := e.integral_of_literal (f.scope outer.names) literal
  rw [isBody] at performs
  obtain ⟨p1, ⟨slot, p2, isSlot, slotted, cs, _⟩, _⟩ := performs
  rw [isInitial] at cs
  obtain ⟨u, p3, v, computes, assigns⟩ := cs
  have sets := assigns.sets (Param.words f.params xs) computes isIntegral slotted.cell integer ready.agrees
    ⟨here.block, here.index⟩
  rw [evaluated] at sets
  obtain ⟨_, k, m1, m', steps', isStore, step, _, frame, wrote⟩ := sets
  refine ⟨slot, n + k, m1, m', slotted.kind, steps.trans steps', isStore, ?_, step, ?_⟩
  · rw [frame.memory slot (Plan.not_temporary slotted)]
    obtain ⟨content, _⟩ := ready.agrees.holds (.slot (f.scope outer.names).declared) slot d.ty isSlot slotted.cell
    rw [content, f.declared_scope]
    show xs[f.params.length]?.map _ = none
    rw [h.length_eq, List.getElem?_eq_none (Nat.le_refl _)]
    rfl
  · rw [wrote.self]
    exact congrArg some (Ty.word_wrap ..)

/-- A literal gives a global and a local variable the same word if the variable is not wider than the literal, and
otherwise just if the type of the literal loses nothing that the variable would keep. -/
theorem initial_values_agree_iff {unit unit' : String} {front front' : List Item} {d : Decl} {e : Expr} {f : FuncDef}
    {results results' : List (Except LowerError Unit)} {s s' after middle : Lowering} {result : Except LowerError Unit}
    {rest : List Stmt} {place place' : Location} (before : (Lowering.start unit).outcomes front = .ok (results, s))
    (made : (Lower.global d).run s = .ok (result, after))
    (before' : (Lowering.start unit').outcomes front' = .ok (results', s'))
    (lowered : (Lower.function f).run s' = .ok (.ok (), middle))
    (isBody : f.body = .compound (.declare [d] place :: rest) place') (isInitial : d.initializer = some e)
    (integer : d.ty.isInteger) (literal : e.literal) (isExact : e.exact) (integers : f.params.all (·.ty.isInteger)) :
    ∃ value, e.fold? = some value ∧ result = .ok () ∧ after.module.Starts d.name value ∧ ∀ xs globals memory,
      List.Forall₂ (fun param x => param.ty.Holds x) f.params xs →
      middle.module.Stored ((Outer.items {} front' results').item (.func f) (.ok ())).names globals memory →
      ∃ func start bits, middle.module.findFunction f.name = some func ∧
        middle.module.graph.called func memory = some start ∧
        middle.module.graph.Initializes (Param.words f.params xs) start d.name (.word d.ty.width bits) ∧
        (bits = BitVec.ofInt d.ty.width value.toInt ↔
          d.ty.width ≤ e.ty.width ∨ ((2 ^ d.ty.width : Nat) : Int) ∣ e.ty.wrap value.toInt - value.toInt) := by
  obtain ⟨value, folded, evaluated⟩ := e.eval_literal literal isExact
  have knows := (Lowering.knows_start unit).outcomes before
  have knows' := (Lowering.knows_start unit').outcomes before'
  obtain ⟨isOk, starts⟩ := Lower.global_starts knows.consistent knows.flat isInitial folded made
  refine ⟨value, folded, isOk, starts, ?_⟩
  intro xs globals memory holds stored
  obtain ⟨func, start, found, called, initializes⟩ := knows'.initializes lowered isBody isInitial integer literal evaluated
    integers holds stored
  exact ⟨func, start, _, found, called, initializes, Ty.ofInt_wrap_eq_iff⟩

def startsWith (d : Decl) : FuncDef where
  name := "starts"
  returnType := d.ty
  params := [{ name := "n", ty := .uint8 }]
  body := .compound [.declare [d] .unknown, .ret (some (.ofName d.name d.ty)) .unknown] .unknown

def narrowStart : Decl where
  name := "x"
  ty := .int8
  initializer := some (.ofUnary .minus (.ofUnary .bitNot (.ofInt 300)))

theorem narrow_start_agrees : ∃ (after middle : Lowering) (func : ValueId) (start : Machine),
    (Lower.global narrowStart).run (.start "unit") = .ok (.ok (), after) ∧
      (Lower.function (startsWith narrowStart)).run (.start "unit") = .ok (.ok (), middle) ∧
      after.module.Starts "x" 301 ∧ middle.module.graph.called func (fun _ => none) = some start ∧
      middle.module.graph.Initializes [.ofInt 8 7] start "x" (.ofInt 8 301) := by
  obtain ⟨⟨result, after⟩, made, _⟩ := @ok_of_toOption_map _ _ _ ((Lower.global narrowStart).run (.start "unit"))
    (fun _ => ()) () (by decide +kernel)
  obtain ⟨⟨result', middle⟩, lowered, isOk⟩ := @ok_of_toOption_map _ _ _
    ((Lower.function (startsWith narrowStart)).run (.start "unit")) (fun pair => pair.1.toOption.isSome) true (by decide +kernel)
  cases result' with
  | error e => cases isOk
  | ok value =>
    have before : (Lowering.start "unit").outcomes [] = .ok ([], .start "unit") := rfl
    obtain ⟨value, folded, rfl, starts, each⟩ := initial_values_agree_iff before made before lowered
      rfl rfl (by decide) (by decide) (by decide) (by decide)
    obtain rfl : 301 = value := Option.some.inj folded
    obtain ⟨func, start, bits, _, called, initializes, agree⟩ := each [7] (fun _ => none) (fun _ => none)
      (.cons rfl .nil) fun _ _ _ _ _ _ => ⟨rfl, nofun⟩
    obtain rfl := agree.2 (.inl (by decide))
    exact ⟨after, middle, func, start, made, lowered, starts, called, initializes⟩

def turnedStart : Decl where
  name := "x"
  ty := .int32
  initializer := some (.ofUnary .bitNot (.ofChar 97))

theorem turned_start_differs : ∃ (after middle : Lowering) (func : ValueId) (start : Machine),
    (Lower.global turnedStart).run (.start "unit") = .ok (.ok (), after) ∧
      (Lower.function (startsWith turnedStart)).run (.start "unit") = .ok (.ok (), middle) ∧
      after.module.Starts "x" (-98) ∧ middle.module.graph.called func (fun _ => none) = some start ∧
      middle.module.graph.Initializes [.ofInt 8 7] start "x" (.ofInt 32 158) ∧
      Datum.ofInt 32 158 ≠ .ofInt 32 (-98) := by
  obtain ⟨⟨result, after⟩, made, _⟩ := @ok_of_toOption_map _ _ _ ((Lower.global turnedStart).run (.start "unit"))
    (fun _ => ()) () (by decide +kernel)
  obtain ⟨⟨result', middle⟩, lowered, isOk⟩ := @ok_of_toOption_map _ _ _
    ((Lower.function (startsWith turnedStart)).run (.start "unit")) (fun pair => pair.1.toOption.isSome) true (by decide +kernel)
  cases result' with
  | error e => cases isOk
  | ok value =>
    have knows := Lowering.knows_start "unit"
    obtain ⟨rfl, starts⟩ := Lower.global_starts knows.consistent knows.flat rfl rfl made
    have stored : middle.module.Stored (Outer.item {} (.func (startsWith turnedStart)) (.ok ())).names (fun _ => none)
        fun _ => none := fun _ _ _ _ _ _ => ⟨rfl, nofun⟩
    have holds : List.Forall₂ (fun param x => param.ty.Holds x) (startsWith turnedStart).params [7] := .cons rfl .nil
    obtain ⟨func, start, _, called, initializes⟩ := knows.initializes lowered rfl rfl (by decide) (by decide)
      (fun _ _ => rfl) (by decide) holds stored
    exact ⟨after, middle, func, start, made, lowered, starts, called, initializes, by decide⟩

end Midend
