import Midend.Proofs.Meaning.Evaluation

/-! The code of an expression gives the value of the expression. One lemma for every operator
comes first, about operands that are already there; the theorem follows the expression. -/
namespace Midend
open Option
variable {ty : Ty} {x : Int}

private theorem Datum.binary?_ofInt (op : Opcode) (width : Nat) (x y : Int) :
    Datum.binary? op (.ofInt width x) (.ofInt width y) =
      (op.compute? (BitVec.ofInt width x) (BitVec.ofInt width y)).map (.word width) := by
  simp [Datum.binary?, Datum.ofInt]

private theorem Datum.compare?_ofInt (pred : Predicate) (width : Nat) (x y : Int) :
    Datum.compare? pred (.ofInt width x) (.ofInt width y) =
      some (.ofInt 1 (truth (pred.decide (BitVec.ofInt width x) (BitVec.ofInt width y)))) := by
  simp [Datum.compare?, Datum.ofInt, ofInt_truth]

private theorem Datum.choice?_truth (h : Bool) : (Ty.bool.word (truth h)).choice? = some h := by
  cases h <;> rfl

private theorem decide_eq_zero (h : ty.Holds x) :
    Predicate.eq.decide (BitVec.ofInt ty.width x) (BitVec.ofInt ty.width 0) = (x == 0) := by
  rw [Bool.eq_iff_iff, beq_iff_eq]
  exact beq_iff_eq.trans (h.inj (.zero ty))

private theorem decide_ne_zero (h : ty.Holds x) :
    Predicate.ne.decide (BitVec.ofInt ty.width x) (BitVec.ofInt ty.width 0) = (x != 0) :=
  congrArg not (decide_eq_zero h)

theorem Ty.alike_common_self (ty : Ty) : (ty.common ty).Alike ty := by
  rcases common_cases ty ty with ⟨alike, _⟩ | ⟨alike, _⟩ <;> exact alike

private theorem Ty.Holds.eq_truth (h : ty.Holds x) (isBool : ty.isBool) : x = truth (x != 0) := by
  have inRange := h.wrap
  rw [Ty.wrap, isSigned_of_isBool isBool, if_neg Bool.false_ne_true, width_of_isBool isBool] at inRange
  have cases : x = 0 ∨ x = 1 := by omega
  rcases cases with rfl | rfl <;> rfl

private theorem Ty.alike_of_isBool (isBool : ty.isBool) : ty.Alike .bool := by
  unfold Ty.isBool at isBool
  unfold Ty.Alike
  split at isBool <;> simp_all [Ty.unqualified]

def LogicOp.settles : LogicOp → Bool → Bool
  | .and, holds => !holds
  | .or, holds => holds

private theorem Expr.eval_logic (sc : Scope) (store : Store) (op : LogicOp) (left right : Expr) (note : Note) :
    (Expr.binary (.logic op) left right note).eval sc store = (left.eval sc store).bind fun x =>
      if op.settles (x != 0) then some (truth (x != 0))
      else (right.eval sc store).map fun y => truth (y != 0) := by
  cases op <;> rw [Expr.eval]
  all_goals
    apply congrArg (Option.bind (left.eval sc store))
    funext x
    by_cases isZero : x = 0 <;> cases right.eval sc store <;> simp [isZero, LogicOp.settles, truth]

namespace Expr
variable {sc : Scope} {note : Note}

theorem integral_ident {n : String} (integral : (ident n note).integral sc) :
    ∃ hit, sc.lookup n = some hit ∧ hit.ty.isInteger ∧ note.ty.Alike hit.ty := by
  rw [Expr.integral] at integral
  cases hit : sc.lookup n with
  | none => simp [hit] at integral
  | some found' => simpa [hit] using integral

private theorem integral_unary {op : UnaryOp} {arg : Expr} (integral : (unary op arg note).integral sc) :
    arg.integral sc ∧ note.ty.Alike (unaryTy op arg.ty) := by
  simpa [Expr.integral] using integral

private theorem integral_binary {op : BinaryOp} {left right : Expr} (integral : (binary op left right note).integral sc) :
    op.isAssignment = false ∧ left.integral sc ∧ right.integral sc ∧
      note.ty.Alike (binaryTy op left.ty right.ty) := by
  cases op with
  | assign base => cases integral
  | _ => simpa [Expr.integral, BinaryOp.isAssignment, and_assoc] using integral

theorem isInteger_of_integral : (e : Expr) → e.integral sc → e.ty.isInteger
  | .int _ _, integral | .char _ _, integral => integral
  | .ident _ note, integral => by
    obtain ⟨hit, _, integer, alike⟩ := integral_ident integral
    show note.ty.isInteger
    rw [alike.isInteger]
    exact integer
  | .unary op arg note, integral => by
    obtain ⟨integral', alike⟩ := integral_unary integral
    have integer := isInteger_of_integral arg integral'
    show note.ty.isInteger
    rw [alike.isInteger]
    cases op <;> simp [unaryTy, integer]
    rfl
  | .binary op left right note, integral => by
    obtain ⟨plain, isLeft, isRight, alike⟩ := integral_binary integral
    have integer := Ty.isInteger_common (isInteger_of_integral left isLeft) (isInteger_of_integral right isRight)
    show note.ty.isInteger
    rw [alike.isInteger]
    cases op with
    | assign base => cases plain
    | arith _ => exact integer
    | compare _ | logic _ => rfl
  | .string _ _, integral | .call _ _ _, integral => nomatch integral

end Expr

namespace Plan

section Operators
variable {c : Plan} {args : List Datum} {m : Machine} {p0 p0' p p1 q : Spot} {l r left right v w : ValueId}
  {lhs rhs ty : Ty} {x y : Int}
variable {val : Int64} {op : Opcode} {pred : Predicate} {own : Ty}

theorem Constant.here (made : c.Constant p val ty v q) (here : m.At p) : m.At q := by
  rw [made.next]
  exact ⟨here.block, here.index⟩

theorem Constant.has (made : c.Constant p val ty v q) (args : List Datum) (m : Machine) (integer : ty.isInteger) :
    c.Has args m v ty (ty.wrap val.toInt) := by
  refine ⟨ty.holds_wrap _, ?_⟩
  unfold Graph.datum
  rw [made.kind, made.ty, Ty.word_wrap]
  simp [Ty.bitWidth_of_isInteger integer]

theorem Balances.order (balances : c.Balances p l r left right ty q) (isLeft : l.index < p.size)
    (isRight : r.index < p.size) : p.size ≤ q.size := by
  obtain ⟨_, _, p1, _, _, _, _, rfl, first, second⟩ := balances
  have order := (first.order isLeft).1
  exact Nat.le_trans order (second.order (Nat.lt_of_lt_of_le isRight order)).1

theorem Balances.arrives (balances : c.Balances p l r left right ty q) (madeLeft : c.Made p0 l lhs p)
    (madeRight : c.Made p0' r rhs p) (isLeft : lhs.isInteger) (isRight : rhs.isInteger) (here : m.At p)
    (hasLeft : c.Has args m l lhs x) (hasRight : c.Has args m r rhs y) : ∃ m', c.Arrives args m p.size q m' ∧
      c.graph.datum args m' left = some (.ofInt (lhs.common rhs).width x) ∧
      c.graph.datum args m' right = some (.ofInt (lhs.common rhs).width y) := by
  have integer := Ty.isInteger_common isLeft isRight
  obtain rfl := balances.common madeLeft.typed madeRight.typed
  obtain ⟨_, _, p1, _, _, _, _, _, first, second⟩ := balances
  obtain ⟨order, below⟩ := first.order madeLeft.below
  obtain ⟨m1, arrives, has⟩ := first.gives madeLeft.typed isLeft integer here hasLeft
  have kept := hasRight.kept arrives.frame madeRight.below
  obtain ⟨m2, arrives', has'⟩ := second.gives madeRight.typed isRight integer arrives.here kept
  refine ⟨m2, arrives.trans arrives' order, ?_, ?_⟩
  · rw [(has.kept arrives'.frame below).datum, Ty.word_wrap]
  · rw [has'.datum, Ty.word_wrap]

theorem Balances.binary {res : Option Int} (balances : c.Balances p l r left right ty p1)
    (put : c.Puts p1 op ty [left, right] .none v q) (isBinary : op.isBinary) (madeLeft : c.Made p0 l lhs p)
    (madeRight : c.Made p0' r rhs p) (isLeft : lhs.isInteger) (isRight : rhs.isInteger) (here : m.At p)
    (hasLeft : c.Has args m l lhs x) (hasRight : c.Has args m r rhs y)
    (computed : op.compute? (BitVec.ofInt (lhs.common rhs).width x) (BitVec.ofInt (lhs.common rhs).width y) =
      res.map (BitVec.ofInt (lhs.common rhs).width ·)) (h : ∀ z ∈ res, (lhs.common rhs).Holds z) :
    c.Gives args m p.size q v (lhs.common rhs) res := by
  have order := balances.order madeLeft.below madeRight.below
  obtain rfl := balances.common madeLeft.typed madeRight.typed
  obtain ⟨m1, arrives, isFirst, isSecond⟩ :=
    balances.arrives madeLeft madeRight isLeft isRight here hasLeft hasRight
  have gives : c.Gives args m1 p1.size q v (lhs.common rhs) res := by
    apply put.gives arrives.here (.inl (by simpa [Opcode.isBinary] using isBinary))
      (Ty.isInteger_common isLeft isRight) h
    rw [put.result?_binary, isFirst, isSecond, bind_some, bind_some, Datum.binary?_ofInt, computed, map_map]
    rfl
  exact arrives.gives gives order

theorem Balances.compare (balances : c.Balances p l r left right ty p1)
    (put : c.Puts p1 .icmp .bool [left, right] (.icmp pred) v q) (madeLeft : c.Made p0 l lhs p)
    (madeRight : c.Made p0' r rhs p) (isLeft : lhs.isInteger) (isRight : rhs.isInteger) (here : m.At p)
    (hasLeft : c.Has args m l lhs x) (hasRight : c.Has args m r rhs y) :
    c.Gives args m p.size q v .bool (some (truth (pred.decide
      (BitVec.ofInt (lhs.common rhs).width x) (BitVec.ofInt (lhs.common rhs).width y)))) := by
  have order := balances.order madeLeft.below madeRight.below
  obtain ⟨m1, arrives, isFirst, isSecond⟩ :=
    balances.arrives madeLeft madeRight isLeft isRight here hasLeft hasRight
  refine arrives.gives (put.gives arrives.here (.inr (.inr (.inl rfl))) rfl ?_ ?_) order
  · intro z hit
    cases hit
    exact holds_truth _
  · rw [put.result?_icmp, isFirst, isSecond, bind_some, bind_some, Datum.compare?_ofInt]
    rfl

theorem Binary.of_values (binary : c.Binary p op l r v q) (madeLeft : c.Made p0 l lhs p)
    (madeRight : c.Made p0' r rhs p) : ∃ left right p1,
      c.Balances p l r left right (lhs.common rhs) p1 ∧ c.Puts p1 op (lhs.common rhs) [left, right] .none v q := by
  obtain ⟨left, right, ty, p1, unifies, put⟩ := binary
  have balances := unifies.of_values madeLeft.value madeRight.value
  obtain rfl := balances.common madeLeft.typed madeRight.typed
  exact ⟨left, right, p1, balances, put⟩

theorem Binary.made {op : Opcode} (binary : c.Binary p op l r v q) (isBinary : op.isBinary)
    (madeLeft : c.Made p0 l lhs p) (madeRight : c.Made p0' r rhs p) : c.Made p v (lhs.common rhs) q := by
  obtain ⟨_, _, _, balances, put⟩ := binary.of_values madeLeft madeRight
  exact (put.made (by rintro rfl; cases isBinary)).from (balances.order madeLeft.below madeRight.below)

theorem Compares.of_values (compares : c.Compares p pred l r v q) (madeLeft : c.Made p0 l lhs p)
    (madeRight : c.Made p0' r rhs p) : ∃ left right ty p1,
      c.Balances p l r left right ty p1 ∧ c.Puts p1 .icmp .bool [left, right] (.icmp pred) v q := by
  obtain ⟨left, right, ty, p1, unifies, put⟩ := compares
  exact ⟨left, right, ty, p1, unifies.of_values madeLeft.value madeRight.value, put⟩

theorem Compares.made {pred : Predicate} (compares : c.Compares p pred l r v q)
    (madeLeft : c.Made p0 l lhs p) (madeRight : c.Made p0' r rhs p) : c.Made p v .bool q := by
  obtain ⟨_, _, _, _, balances, put⟩ := compares.of_values madeLeft madeRight
  exact (put.made nofun).from (balances.order madeLeft.below madeRight.below)

theorem Constant.beside (constant : c.Constant p val own.unqualified w p1) (made : c.Made p0 v ty p)
    (isTy : c.graph.ty? v = some own) : c.Made p0 v ty p1 ∧ c.Made p w ty p1 := by
  have other := constant.made
  obtain ⟨_, isOwn, alike⟩ := made.typed
  cases isTy.symm.trans isOwn
  exact ⟨made.until other.order, other.congr (own.alike_unqualified.trans alike)⟩

private theorem Constant.has_beside (constant : c.Constant p val own.unqualified w p1) (args : List Datum) (m : Machine)
    (made : c.Made p0 v ty p) (isTy : c.graph.ty? v = some own) (integer : ty.isInteger) :
    c.Has args m w ty (ty.wrap val.toInt) := by
  obtain ⟨_, isOwn, alike⟩ := made.typed
  cases isTy.symm.trans isOwn
  have eq : own.unqualified.Alike ty := own.alike_unqualified.trans alike
  rw [← eq.wrap]
  exact (constant.has args m (by rwa [eq.isInteger])).congr eq

theorem Tests.made (tests : c.Tests p v w q) (made : c.Made p0 v ty p) : c.Made p w .bool q := by
  cases tests with
  | truth isTy isBool => exact ⟨Nat.le_refl _, made.below, ⟨_, isTy, Ty.alike_of_isBool isBool⟩, made.value⟩
  | compare isTy _ constant compared =>
    obtain ⟨madeLeft, madeRight⟩ := constant.beside made isTy
    exact (compared.made madeLeft madeRight).from madeRight.order

private theorem Compares.with_zero (compares : c.Compares p1 pred v w l q)
    (constant : c.Constant p 0 own.unqualified w p1) (made : c.Made p0 v ty p)
    (isTy : c.graph.ty? v = some own) (integer : ty.isInteger) (here : m.At p) (has : c.Has args m v ty x) :
    c.Gives args m p.size q l .bool (some (truth (pred.decide
      (BitVec.ofInt ty.width x) (BitVec.ofInt ty.width 0)))) := by
  obtain ⟨madeLeft, madeRight⟩ := constant.beside made isTy
  have isZero : c.Has args m w ty 0 := by
    have wrapped := constant.has_beside args m made isTy integer
    rwa [show ty.wrap (0 : Int64).toInt = 0 from Ty.Holds.zero ty] at wrapped
  obtain ⟨_, _, _, _, balances, put⟩ := compares.of_values madeLeft madeRight
  have gives := balances.compare put madeLeft madeRight integer integer (constant.here here) has isZero
  rw [ty.alike_common_self.width] at gives
  exact (Arrives.refl here).gives gives madeRight.order

theorem Tests.gives (tests : c.Tests p v w q) (made : c.Made p0 v ty p) (integer : ty.isInteger)
    (here : m.At p) (has : c.Has args m v ty x) :
    c.Gives args m p.size q w .bool (some (Midend.truth (x != 0))) := by
  cases tests with
  | truth isTy isBool =>
    obtain ⟨own, isOwn, alike⟩ := made.typed
    cases isTy.symm.trans isOwn
    have eq := alike.symm.trans (Ty.alike_of_isBool isBool)
    have isBool' : ty.isBool := by rwa [← alike.isBool]
    rw [← has.holds.eq_truth isBool']
    exact ⟨m, .refl here, has.congr eq⟩
  | compare isTy _ constant compared =>
    rw [← decide_ne_zero has.holds]
    exact compared.with_zero constant made isTy integer here has

theorem Unary.made {op : UnaryOp} (unary : c.Unary p op v w q) (made : c.Made p0 v ty p) :
    c.Made p w (Expr.unaryTy op ty) q := by
  obtain ⟨own, isTy, cs⟩ := unary
  cases op with
  | plus =>
    obtain ⟨rfl, rfl⟩ := cs
    exact ⟨Nat.le_refl _, made.below, made.typed.congr ty.alike_unqualified.symm, made.value⟩
  | minus =>
    obtain ⟨zero, p1, constant, binary⟩ := cs
    obtain ⟨madeRight, madeLeft⟩ := constant.beside made isTy
    exact ((binary.made rfl madeLeft madeRight).from madeLeft.order).congr
      (ty.alike_common_self.trans ty.alike_unqualified.symm)
  | logicalNot =>
    obtain ⟨zero, p1, constant, compares⟩ := cs
    obtain ⟨madeLeft, madeRight⟩ := constant.beside made isTy
    exact (compares.made madeLeft madeRight).from madeRight.order
  | bitNot =>
    obtain ⟨ones, p1, constant, binary⟩ := cs
    obtain ⟨madeLeft, madeRight⟩ := constant.beside made isTy
    exact ((binary.made rfl madeLeft madeRight).from madeRight.order).congr
      (ty.alike_common_self.trans ty.alike_unqualified.symm)

theorem Binary.alike {z : Int} (binary : c.Binary p op l r v q) (isBinary : op.isBinary)
    (madeLeft : c.Made p0 l ty p) (madeRight : c.Made p0' r ty p) (integer : ty.isInteger) (here : m.At p)
    (hasLeft : c.Has args m l ty x) (hasRight : c.Has args m r ty y)
    (computed : op.compute? (BitVec.ofInt ty.width x) (BitVec.ofInt ty.width y) = some (BitVec.ofInt ty.width z)) :
    c.Gives args m p.size q v ty (some (ty.wrap z)) := by
  obtain ⟨_, _, _, balances, put⟩ := binary.of_values madeLeft madeRight
  have alike := ty.alike_common_self
  refine (balances.binary put isBinary madeLeft madeRight integer integer here hasLeft hasRight ?_ ?_).congr alike
  · rw [alike.width, computed, map_some, Ty.ofInt_wrap]
  · intro _ hit
    cases hit
    exact (alike.holds _).2 (ty.holds_wrap z)

theorem Unary.gives {op : UnaryOp} (unary : c.Unary p op v w q) (made : c.Made p0 v ty p)
    (integer : ty.isInteger) (here : m.At p) (has : c.Has args m v ty x) :
    c.Gives args m p.size q w (Expr.unaryTy op ty) (some (op.eval ty x)) := by
  obtain ⟨own, isTy, cs⟩ := unary
  cases op with
  | plus =>
    obtain ⟨rfl, rfl⟩ := cs
    exact ⟨m, .refl here, has.congr ty.alike_unqualified.symm⟩
  | minus =>
    obtain ⟨zero, p1, constant, binary⟩ := cs
    obtain ⟨madeRight, madeLeft⟩ := constant.beside made isTy
    have isZero := constant.has_beside args m made isTy integer
    have gives := binary.alike (z := -x) rfl madeLeft madeRight integer (constant.here here) isZero has
      (by rw [Ty.ofInt_wrap]; exact compute?_minus ty.width x)
    exact ((Arrives.refl here).gives gives madeLeft.order).congr ty.alike_unqualified.symm
  | logicalNot =>
    obtain ⟨zero, p1, constant, compares⟩ := cs
    show c.Gives args m p.size q w .bool (some (truth (x == 0)))
    rw [← decide_eq_zero has.holds]
    exact compares.with_zero constant made isTy integer here has
  | bitNot =>
    obtain ⟨ones, p1, constant, binary⟩ := cs
    obtain ⟨madeLeft, madeRight⟩ := constant.beside made isTy
    have isOnes := constant.has_beside args m made isTy integer
    have gives := binary.alike (z := -1 - x) rfl madeLeft madeRight integer (constant.here here) has isOnes
      (by rw [Ty.ofInt_wrap]; exact compute?_bitNot ty.width x)
    exact ((Arrives.refl here).gives gives madeRight.order).congr ty.alike_unqualified.symm

end Operators

section Control
variable {c : Plan} {args : List Datum} {m m' : Machine} {p q : Spot} {v w : ValueId} {ty : Ty} {x : Int}
  {store : Store}
variable {dest : ValueId} {h : Bool}

structure Wrote (m m' : Machine) (cell : ValueId) (content : Datum) : Prop where
  registers : m'.registers = m.registers
  self : m'.memory cell = some content
  other : ∀ v, v ≠ cell → m'.memory v = m.memory v

theorem Wrote.frame {cell : ValueId} {content : Datum} {size : Nat} (wrote : Wrote m m' cell content)
    (temporary : c.Temporary cell) : c.Frame size m m' := by
  refine ⟨?_, ?_, ?_⟩
  · intro v _
    rw [wrote.registers]
  · intro v _
    rw [wrote.registers]
  · intro v lasting
    apply wrote.other
    rintro rfl
    exact lasting temporary

theorem Stores.writes (stores : c.Stores p v w q) (here : m.At p)
    (isAddress : c.graph.datum args m w = some (.address w))
    (points : c.graph.ty? w = some (.pointer ty.unqualified)) (integer : ty.isInteger)
    (has : c.Has args m v ty x) : ∃ m', c.graph.Steps args 1 m m' ∧ m'.At q ∧ Wrote m m' w (ty.word x) := by
  obtain ⟨i, put⟩ := stores
  have stored : c.graph.stored? args m v w = some (w, ty.word x) := by
    unfold Graph.stored?
    rw [isAddress, points, has.datum]
    show ((some (ty.word x)).filter fun content => content.fits (some ty.unqualified)).map _ = _
    rw [filter_some, if_pos (ty.fits_word ty.alike_unqualified integer x)]
    rfl
  have performed : c.graph.execute args m = .goes { m.write w (some (ty.word x)) with index := m.index + 1 } := by
    rw [put.execute here]
    unfold Graph.perform
    rw [put.operands]
    dsimp only [List.map]
    rw [stored]
  refine ⟨_, .one performed, ⟨?_, ?_⟩, ⟨rfl, if_pos rfl, fun v other => if_neg other⟩⟩
  · rw [put.next]
    exact here.block
  · rw [put.next]
    exact congrArg (· + 1) here.index

theorem Stores.order (stores : c.Stores p v w q) : p.size ≤ q.size := by
  obtain ⟨i, put⟩ := stores
  exact (put.made nofun).order

theorem Jumps.step (jumps : c.Jumps p dest) (here : m.At p) : c.graph.Steps args 1 m (m.goto dest) := by
  obtain ⟨size, i, q, put⟩ := jumps
  apply Graph.Steps.one
  rw [put.execute ⟨here.block, here.index⟩]
  unfold Graph.perform
  rw [put.operands]
  rfl

theorem Branches.step {thenBlock elseBlock : ValueId} (branches : c.Branches p v thenBlock elseBlock)
    (here : m.At p) (has : c.Has args m v .bool (truth h)) :
    c.graph.Steps args 1 m (m.goto (if h then thenBlock else elseBlock)) := by
  obtain ⟨size, i, q, put⟩ := branches
  apply Graph.Steps.one
  rw [put.execute ⟨here.block, here.index⟩]
  unfold Graph.perform
  rw [put.operands]
  dsimp only [List.map]
  rw [has.datum, bind_some, Datum.choice?_truth]

theorem Frame.goto (size : Nat) (m : Machine) (dest : ValueId) : c.Frame size m (m.goto dest) :=
  ⟨fun _ _ => rfl, fun _ _ => rfl, fun _ _ => rfl⟩

theorem Jumps.arrives (jumps : c.Jumps p dest) (args : List Datum) (size n : Nat) (here : m.At p) :
    c.Arrives args m size ⟨dest, 0, n⟩ (m.goto dest) :=
  ⟨⟨1, jumps.step here⟩, ⟨rfl, rfl⟩, .goto size m dest⟩

theorem Stores.arrives (stores : c.Stores p v w q) (size : Nat) (slotted : c.Slotted w .bool none)
    (agrees : c.Agrees store m) (here : m.At p) (has : c.Has args m v .bool (truth h)) :
    ∃ m', c.Arrives args m size q m' ∧ m'.memory w = some (Ty.bool.word (truth h)) := by
  obtain ⟨m', steps, there, wrote⟩ := stores.writes here (slotted.datum agrees) slotted.ty rfl has
  exact ⟨m', ⟨⟨1, steps⟩, there, wrote.frame ⟨_, slotted⟩⟩, wrote.self⟩

theorem Slotted.load (slotted : c.Slotted w .bool none) (args : List Datum)
    (put : c.Puts p .load .bool [w] .none v q) (agrees : c.Agrees store m) (here : m.At p)
    (content : m.memory w = some (Ty.bool.word (truth h))) :
    c.Gives args m p.size q v .bool (some (truth h)) := by
  apply put.gives here (.inr (.inr (.inr rfl))) rfl
  · intro z hit
    cases hit
    exact holds_truth h
  · rw [put.result?_load, slotted.datum agrees]
    exact content

end Control

section Logic
variable {c : Plan} {args : List Datum} {m : Machine} {p q : Spot} {v : ValueId} {store : Store}
variable {op : LogicOp}

theorem Decides.arrives {h : Bool} {lhs rhsBlock join : ValueId} (size n : Nat)
    (decides : c.Decides p op lhs rhsBlock join) (here : m.At p)
    (has : c.Has args m lhs .bool (truth h)) :
    ∃ m', c.Arrives args m size ⟨if op.settles h then join else rhsBlock, 0, n⟩ m' ∧
      m'.memory = m.memory := by
  cases op <;> cases h <;> exact ⟨_, ⟨⟨1, Branches.step decides here has⟩, ⟨rfl, rfl⟩, .goto size m _⟩, rfl⟩

/-- A logical operator skips its right operand if the left one decides. -/
theorem Connects.gives {left right : Giving} {a b : Option Int} (connects : c.Connects op left right p v q)
    (madeLeft : ∀ {p v q}, c.Condition left p v q → c.Made p v .bool q)
    (madeRight : ∀ {p v q}, c.Condition right p v q → c.Made p v .bool q)
    (givesLeft : ∀ {m p v q}, c.Condition left p v q → c.Agrees store m → m.At p →
      c.Gives args m p.size q v .bool (a.map fun x => truth (x != 0)))
    (givesRight : ∀ {m p v q}, c.Condition right p v q → c.Agrees store m → m.At p →
      c.Gives args m p.size q v .bool (b.map fun x => truth (x != 0))) (agrees : c.Agrees store m)
    (here : m.At p) :
    c.Gives args m p.size q v .bool (a.bind fun x =>
      if op.settles (x != 0) then some (truth (x != 0)) else b.map fun y => truth (y != 0)) := by
  obtain ⟨slot, lhs, rhs, rhsBlock, join, p1, p2, p3, p4, n, k, slotted, leftCode, stores, decides, lt,
    rightCode, stores', jumps, bound', load⟩ := connects
  have isLeft := madeLeft leftCode
  have isRight := madeRight rightCode
  have order := stores.order
  have order' := stores'.order
  have first := givesLeft (m := m) leftCode agrees ⟨here.block, here.index⟩
  have pre : p.size ≤ p1.size := Nat.le_trans (Nat.le_succ _) isLeft.order
  have between : p1.size ≤ n := Nat.le_trans order lt
  have t : n ≤ k := Nat.le_trans isRight.order (Nat.le_trans order' bound')
  cases a with
  | none => exact first
  | some x =>
    obtain ⟨m1, arrives1, has1⟩ := first
    have agrees1 := agrees.kept arrives1.frame
    obtain ⟨m2, arrives2, content2⟩ := stores.arrives p1.size slotted agrees1 arrives1.here has1
    have agrees2 := agrees1.kept arrives2.frame
    have has2 := has1.kept arrives2.frame isLeft.below
    obtain ⟨m3, arrives3, eq⟩ := decides.arrives p1.size (if op.settles (x != 0) then k else n) arrives2.here has2
    have agrees3 := agrees2.kept arrives3.frame
    have s0 : c.Arrives args m p.size p m := .refl here
    have arrives := (s0.trans arrives1 (Nat.le_succ _)).trans (arrives2.trans arrives3 (Nat.le_refl _)) pre
    rw [bind_some]
    cases settled : op.settles (x != 0) with
    | true =>
      rw [settled] at arrives
      have gives := slotted.load args load agrees3 ⟨arrives.here.block, arrives.here.index⟩ (eq ▸ content2)
      exact arrives.gives gives (Nat.le_trans pre (Nat.le_trans between t))
    | false =>
      rw [settled] at arrives
      apply arrives.gives ?_ (Nat.le_trans pre between)
      have second := givesRight (m := m3) rightCode agrees3 ⟨arrives.here.block, arrives.here.index⟩
      cases b with
      | none => exact second
      | some y =>
        obtain ⟨m4, arrives4, has4⟩ := second
        have agrees4 := agrees3.kept arrives4.frame
        obtain ⟨m5, arrives5, content5⟩ := stores'.arrives n slotted agrees4 arrives4.here has4
        have arrives6 := jumps.arrives args n k arrives5.here
        have agrees6 := (agrees4.kept arrives5.frame).kept arrives6.frame
        have gives := slotted.load args load agrees6 arrives6.here content5
        exact (arrives4.trans (arrives5.trans arrives6 (Nat.le_refl n)) (Nat.le_refl n)).gives gives t

end Logic

section Expressions
variable {c : Plan} {args : List Datum} {sc : Scope} {store : Store} {m : Machine} {p q : Spot} {v : ValueId}
  {e : Expr}
variable {giving : Giving} {ty : Ty}

private theorem Value.made_of (integral : e.integral sc)
    (made : (∀ n note, e ≠ .ident n note) → ∀ p v q, c.Computes sc e p v q → c.Made p v e.ty q)
    (cs : c.Value (c.Computes sc e) p v q) : c.Made p v e.ty q := by
  obtain ⟨u, p1, computes, loads⟩ := cs
  by_cases isName : ∃ n note, e = .ident n note
  · obtain ⟨n, note, rfl⟩ := isName
    obtain ⟨hit, isFound, integer, alike⟩ := Expr.integral_ident integral
    obtain ⟨rfl, stands⟩ := computes
    exact ((loads.of_cell (stands hit isFound integer).2).made nofun).congr (hit.ty.alike_unqualified.trans alike.symm)
  · have made := made (fun n note eq => isName ⟨n, note, eq⟩) p u p1 computes
    obtain ⟨rfl, rfl⟩ := loads.of_value made.value
    exact made

private theorem Condition.made_of (made : ∀ {v q}, c.Value giving p v q → c.Made p v ty q)
    (cs : c.Condition giving p v q) : c.Made p v .bool q := by
  obtain ⟨u, p1, val, tests⟩ := cs
  exact (tests.made (made val)).from (made val).order

/-- The value of an expression other than a variable is made by its code. -/
theorem Computes.made : (e : Expr) → e.integral sc → (∀ name note, e ≠ .ident name note) → ∀ p v q,
    c.Computes sc e p v q → c.Made p v e.ty q
  | .int _ _, _, _, _, _, _, cs | .char _ _, _, _, _, _, _, cs => Constant.made cs
  | .ident name note, _, plain, _, _, _, _ => absurd rfl (plain name note)
  | .unary op arg note, integral, _, p, v, q, cs => by
    obtain ⟨isOperand, alike⟩ := Expr.integral_unary integral
    obtain ⟨u, p1, val, unary⟩ := cs
    have made := Value.made_of isOperand (Computes.made arg isOperand) val
    exact ((unary.made made).from made.order).congr alike.symm
  | .binary op left right note, integral, _, p, v, q, cs => by
    obtain ⟨plain, isLeft, isRight, alike⟩ := Expr.integral_binary integral
    have madeLeft {p v q} := Value.made_of (p := p) (v := v) (q := q) isLeft (Computes.made left isLeft)
    have madeRight {p v q} := Value.made_of (p := p) (v := v) (q := q) isRight (Computes.made right isRight)
    cases op with
    | assign base => cases plain
    | arith op =>
      obtain ⟨l, r, p1, p2, first, second, binary⟩ := cs
      have isFirst := (madeLeft first).until (madeRight second).order
      exact ((binary.made (op.isBinary_opcode _ _) isFirst (madeRight second)).from isFirst.order).congr alike.symm
    | compare op =>
      obtain ⟨l, r, p1, p2, first, second, compares⟩ := cs
      have isFirst := (madeLeft first).until (madeRight second).order
      exact ((compares.made isFirst (madeRight second)).from isFirst.order).congr alike.symm
    | logic op =>
      obtain ⟨_, _, _, _, _, p1, p2, p3, p4, n, k, _, first, stores, _, lt, second, stores', _, bound', load⟩ := cs
      have isFirst := (Condition.made_of madeLeft first).order
      have isSecond := (Condition.made_of madeRight second).order
      have grown : p.size ≤ p.grow.size := Nat.le_succ _
      have order : p.size ≤ k := Nat.le_trans grown (Nat.le_trans isFirst (Nat.le_trans stores.order
        (Nat.le_trans lt (Nat.le_trans isSecond (Nat.le_trans stores'.order bound')))))
      exact ((load.made nofun).from order).congr alike.symm
  | .string _ _, integral, _, _, _, _, _ | .call _ _ _, integral, _, _, _, _, _ => nomatch integral

theorem Value.made (integral : e.integral sc) (cs : c.Value (c.Computes sc e) p v q) :
    c.Made p v e.ty q :=
  Value.made_of integral (Computes.made e integral) cs

theorem Condition.made (integral : e.integral sc) (cs : c.Condition (c.Computes sc e) p v q) :
    c.Made p v .bool q :=
  Condition.made_of (Value.made integral) cs

theorem Value.plain (integral : e.integral sc) (plain : ∀ n note, e ≠ .ident n note)
    (cs : c.Value (c.Computes sc e) p v q) : c.Computes sc e p v q := by
  obtain ⟨u, p1, computes, loads⟩ := cs
  obtain ⟨rfl, rfl⟩ := loads.of_value (Computes.made e integral plain _ _ _ computes).value
  exact computes

private theorem Condition.gives_of {r : Option Int} (integer : ty.isInteger)
    (made : ∀ {v q}, c.Value giving p v q → c.Made p v ty q)
    (gives : ∀ {v q}, c.Value giving p v q → c.Gives args m p.size q v ty r)
    (cs : c.Condition giving p v q) : c.Gives args m p.size q v .bool (r.map fun x => truth (x != 0)) := by
  obtain ⟨u, p1, val, tests⟩ := cs
  rw [map_eq_bind]
  apply (gives val).bind (made val).order
  intro x m' _ arrives has
  exact tests.gives (made val) integer arrives.here has

/-- The code of an expression gives the value of the expression, and the machine gets stuck where
it has none. -/
theorem Value.gives (args : List Datum) : (e : Expr) → e.integral sc → ∀ {m p v q}, c.Value (c.Computes sc e) p v q →
    c.Agrees store m → m.At p → c.Gives args m p.size q v e.ty (e.eval sc store)
  | .int val note, integral, m, p, v, q, cs, _, here => by
    have constant : c.Constant p val note.ty v q := Value.plain integral nofun cs
    rw [Expr.eval]
    exact ⟨m, .refl (constant.here here), constant.has args m integral⟩
  | .char val note, integral, m, p, v, q, cs, _, here => by
    have constant : c.Constant p (Int64.ofNat val.toNat) note.ty v q := Value.plain integral nofun cs
    have has := constant.has args m integral
    rw [Int64.toInt_ofNat_of_lt (Nat.lt_of_lt_of_le val.toNat_lt (by decide))] at has
    rw [Expr.eval]
    exact ⟨m, .refl (constant.here here), has⟩
  | .ident n note, integral, m, p, v, q, cs, agrees, here => by
    obtain ⟨hit, isFound, integer, alike⟩ := Expr.integral_ident integral
    obtain ⟨u, p1, ⟨rfl, stands⟩, loads⟩ := cs
    obtain ⟨isCell, cell⟩ := stands hit isFound integer
    rw [Expr.eval, isFound, bind_some]
    exact (loads.gives cell isCell integer agrees here).congr alike.symm
  | .unary op arg note, integral, m, p, v, q, cs, agrees, here => by
    obtain ⟨isOperand, alike⟩ := Expr.integral_unary integral
    obtain ⟨u, p1, val, unary⟩ : c.Computes sc _ p v q := Value.plain integral nofun cs
    have made := Value.made isOperand val
    rw [Expr.eval, map_eq_bind]
    apply Gives.bind (Value.gives args arg isOperand val agrees here) made.order
    intro x m' _ arrives has
    exact (unary.gives made (arg.isInteger_of_integral isOperand) arrives.here has).congr alike.symm
  | .binary op left right note, integral, m, p, v, q, cs, agrees, here => by
    obtain ⟨notAssign, isLeft, isRight, alike⟩ := Expr.integral_binary integral
    have leftInteger := left.isInteger_of_integral isLeft
    have rightInteger := right.isInteger_of_integral isRight
    have givesLeft {m p v q} := Value.gives args left isLeft (m := m) (p := p) (v := v) (q := q)
    have givesRight {m p v q} := Value.gives args right isRight (m := m) (p := p) (v := v) (q := q)
    have computes := Value.plain integral nofun cs
    cases op with
    | assign base => cases notAssign
    | arith op =>
      obtain ⟨l, r, p1, p2, first, second, binary⟩ := computes
      have madeRight := Value.made isRight second
      have madeLeft := (Value.made isLeft first).until madeRight.order
      rw [Expr.eval]
      apply Gives.bind (givesLeft first agrees here) (Value.made isLeft first).order
      intro x m1 _ arrives has
      apply Gives.bind (givesRight second (agrees.kept arrives.frame) arrives.here) madeRight.order
      intro y m2 _ arrives' has'
      have kept := has.kept arrives'.frame (Value.made isLeft first).below
      obtain ⟨_, _, _, balances, put⟩ := binary.of_values madeLeft madeRight
      exact (balances.binary put (op.isBinary_opcode _ _) madeLeft madeRight leftInteger rightInteger arrives'.here
        kept has' (op.compute?_opcode has.holds) fun z hit => ArithOp.holds_eval hit).congr alike.symm
    | compare op =>
      obtain ⟨l, r, p1, p2, first, second, compares⟩ := computes
      have madeRight := Value.made isRight second
      have madeLeft := (Value.made isLeft first).until madeRight.order
      rw [Expr.eval]
      apply Gives.bind (givesLeft first agrees here) (Value.made isLeft first).order
      intro x m1 _ arrives has
      apply Gives.bind (givesRight second (agrees.kept arrives.frame) arrives.here) madeRight.order
      intro y m2 _ arrives' has'
      have kept := has.kept arrives'.frame (Value.made isLeft first).below
      obtain ⟨_, _, _, _, balances, put⟩ := compares.of_values madeLeft madeRight
      have gives := balances.compare put madeLeft madeRight leftInteger rightInteger arrives'.here kept has'
      rw [op.decide_predicate] at gives
      exact gives.congr alike.symm
    | logic op =>
      rw [Expr.eval_logic]
      refine (Connects.gives computes (Condition.made isLeft) (Condition.made isRight) ?_ ?_ agrees here).congr alike.symm
      · intro m p v q cs agrees here
        exact cs.gives_of leftInteger (Value.made isLeft) fun val => givesLeft val agrees here
      · intro m p v q cs agrees here
        exact cs.gives_of rightInteger (Value.made isRight) fun val => givesRight val agrees here
  | .string _ _, integral, _, _, _, _, _, _, _ | .call _ _ _, integral, _, _, _, _, _, _, _ => nomatch integral

theorem Condition.gives (args : List Datum) (integral : e.integral sc) (cs : c.Condition (c.Computes sc e) p v q)
    (agrees : c.Agrees store m) (here : m.At p) :
    c.Gives args m p.size q v .bool ((e.eval sc store).map fun x => truth (x != 0)) :=
  cs.gives_of (e.isInteger_of_integral integral) (Value.made integral) fun val =>
    Value.gives args e integral val agrees here

end Expressions
end Plan
end Midend
