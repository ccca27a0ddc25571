import Midend.Proofs.Meaning.Machine
import Midend.Proofs.Meaning.Plan

/-! What the code of an expression computes: the word of its value, or the machine gets stuck
where the expression has no value. Registers of earlier instructions and the variables stay as
they are. -/
namespace Midend

def Ty.word (ty : Ty) (x : Int) : Datum := .ofInt ty.width x

theorem Ty.Alike.word {ty other : Ty} (alike : ty.Alike other) : ty.word = other.word := by
  funext x
  rw [Ty.word, alike.width, Ty.word]

theorem Ty.word_wrap (ty : Ty) (x : Int) : ty.word (ty.wrap x) = .ofInt ty.width x := by
  rw [word, Datum.ofInt, ofInt_wrap, Datum.ofInt]

theorem Ty.fits_word {ty other : Ty} (alike : other.Alike ty) (integer : ty.isInteger) (x : Int) :
    (ty.word x).fits (some other) := by
  show (other.bitWidth == some ty.width) = true
  rw [alike.bitWidth, bitWidth_of_isInteger integer, beq_self_eq_true]

structure Machine.At (m : Machine) (p : Spot) : Prop where
  block : m.block = p.block
  index : m.index = p.index

namespace Plan

section Shape
variable (c : Plan)
variable {other : Ty} {left right : ValueId}

def Typed (v : ValueId) (ty : Ty) : Prop := ∃ own, c.graph.ty? v = some own ∧ own.Alike ty

structure Made (p : Spot) (v : ValueId) (ty : Ty) (q : Spot) : Prop where
  order : p.size ≤ q.size
  below : v.index < q.size
  typed : c.Typed v ty
  value : ∃ kind, c.graph.kind? v = some kind ∧ kind.isAddress = false

variable {c} {p p1 q : Spot} {v w : ValueId} {ty : Ty}

theorem Typed.congr (typed : c.Typed v ty) (alike : ty.Alike other) : c.Typed v other := by
  obtain ⟨own, hit, eq⟩ := typed
  exact ⟨own, hit, eq.trans alike⟩

theorem Made.congr (made : c.Made p v ty q) (alike : ty.Alike other) : c.Made p v other q :=
  { made with typed := made.typed.congr alike }

theorem Made.from (made : c.Made p1 v ty q) (pre : p.size ≤ p1.size) : c.Made p v ty q :=
  { made with order := Nat.le_trans pre made.order }

theorem Made.until {q' : Spot} (made : c.Made p v ty q) (later : q.size ≤ q'.size) : c.Made p v ty q' :=
  { made with order := Nat.le_trans made.order later, below := Nat.lt_of_lt_of_le made.below later }

theorem Puts.made {op : Opcode} {operands : List ValueId} {attr : Attr} {inst : ValueId}
    (put : c.Puts p op ty operands attr inst q) (notSlot : op ≠ .alloca) : c.Made p inst ty q where
  order := by
    rw [put.next]
    exact Nat.le_succ _
  below := by
    rw [put.next, put.fresh]
    exact Nat.lt_succ_self _
  typed := ⟨ty, put.ty, rfl⟩
  value := ⟨_, put.kind, by simpa [Kind.isAddress] using notSlot⟩

theorem Constant.made {value : Int64} (made : c.Constant p value ty v q) : c.Made p v ty q where
  order := by
    rw [made.next]
    exact Nat.le_succ _
  below := by
    rw [made.next, made.fresh]
    exact Nat.lt_succ_self _
  typed := ⟨ty, made.ty, rfl⟩
  value := ⟨_, made.kind, rfl⟩

theorem Loads.of_value (loads : c.Loads p v w q)
    (val : ∃ k, c.graph.kind? v = some k ∧ k.isAddress = false) : w = v ∧ q = p := by
  obtain ⟨k, hit, notAddress⟩ := val
  cases loads with
  | plain _ _ => exact ⟨rfl, rfl⟩
  | address found' isAddress _ _ _ =>
    cases hit.symm.trans found'
    rw [notAddress] at isAddress
    cases isAddress

theorem Cell.isAddress (cell : c.Cell v ty) : ∃ k, c.graph.kind? v = some k ∧ k.isAddress := by
  rcases cell.kind with ⟨n, hit⟩ | ⟨_, n, slotted⟩
  · exact ⟨_, hit, rfl⟩
  · exact ⟨_, slotted.kind, rfl⟩

theorem Loads.of_cell (loads : c.Loads p v w q) (cell : c.Cell v ty) :
    c.Puts p .load ty.unqualified [v] .none w q := by
  cases loads with
  | plain hit notAddress =>
    obtain ⟨k, found', isAddress⟩ := cell.isAddress
    cases hit.symm.trans found'
    rw [notAddress] at isAddress
    cases isAddress
  | address _ _ isTy points put =>
    cases cell.ty.symm.trans isTy
    cases points
    exact put

theorem Converts.order (converts : c.Converts p v ty w q) (below : v.index < p.size) :
    p.size ≤ q.size ∧ w.index < q.size := by
  cases converts with
  | same _ _ => exact ⟨Nat.le_refl _, below⟩
  | cast _ hit put =>
    have made := put.made (by rintro rfl; exact absurd (Builder.castOp_isCast hit) (by decide))
    exact ⟨made.order, made.below⟩

theorem Unifies.of_values {lhs rhs : ValueId} (unifies : c.Unifies p lhs rhs left right ty q)
    (isLeft : ∃ k, c.graph.kind? lhs = some k ∧ k.isAddress = false)
    (isRight : ∃ k, c.graph.kind? rhs = some k ∧ k.isAddress = false) :
    c.Balances p lhs rhs left right ty q := by
  obtain ⟨l, r, p1, p2, loadsLeft, loadsRight, balances⟩ := unifies
  obtain ⟨rfl, rfl⟩ := loadsLeft.of_value isLeft
  obtain ⟨rfl, rfl⟩ := loadsRight.of_value isRight
  exact balances

theorem Balances.common {l r : ValueId} {lhs rhs : Ty} (balances : c.Balances p l r left right ty q)
    (isLeft : c.Typed l lhs) (isRight : c.Typed r rhs) : ty = lhs.common rhs := by
  obtain ⟨leftTy, rightTy, _, hit, found', _, _, rfl, _⟩ := balances
  obtain ⟨own, isOwn, alike⟩ := isLeft
  obtain ⟨own', isOwn', alike'⟩ := isRight
  cases hit.symm.trans isOwn
  cases found'.symm.trans isOwn'
  exact alike.common alike'

end Shape

section Run
variable (c : Plan) (args : List Datum)
variable {other : Ty} {q' : Spot} {r : Option Int}

def Temporary (cell : ValueId) : Prop := ∃ ty, c.Slotted cell ty none

structure Frame (size : Nat) (m m' : Machine) : Prop where
  registers : ∀ v, v.index < size → m'.registers v = m.registers v
  slots : ∀ v, c.graph.opcode? v = some .alloca → m'.registers v = m.registers v
  memory : ∀ cell, ¬ c.Temporary cell → m'.memory cell = m.memory cell

structure Arrives (m : Machine) (size : Nat) (q : Spot) (m' : Machine) : Prop where
  steps : ∃ n, c.graph.Steps args n m m'
  here : m'.At q
  frame : c.Frame size m m'

structure Has (m : Machine) (v : ValueId) (ty : Ty) (x : Int) : Prop where
  holds : ty.Holds x
  datum : c.graph.datum args m v = some (ty.word x)

/-- The machine comes to a spot and has a value then, or it gets stuck if there is none. -/
def Gives (m : Machine) (size : Nat) (q : Spot) (v : ValueId) (ty : Ty) : Option Int → Prop
  | some x => ∃ m', c.Arrives args m size q m' ∧ c.Has args m' v ty x
  | none => c.graph.Halts args m .stuck

variable {c args} {m m' m'' : Machine} {size size' : Nat} {q : Spot} {v : ValueId} {ty : Ty}

theorem Frame.refl (m : Machine) : c.Frame size m m := ⟨fun _ _ => rfl, fun _ _ => rfl, fun _ _ => rfl⟩

theorem Frame.trans (first : c.Frame size m m') (second : c.Frame size' m' m'') (lt : size ≤ size') :
    c.Frame size m m'' := by
  refine ⟨?_, ?_, ?_⟩
  · intro v below
    rw [second.registers v (Nat.lt_of_lt_of_le below lt), first.registers v below]
  · intro v isSlot
    rw [second.slots v isSlot, first.slots v isSlot]
  · intro cell lasting
    rw [second.memory cell lasting, first.memory cell lasting]

theorem Frame.datum (frame : c.Frame size m m') (below : v.index < size) :
    c.graph.datum args m' v = c.graph.datum args m v := by
  unfold Graph.datum
  rw [frame.registers v below]

theorem Has.kept {x : Int} (has : c.Has args m v ty x) (frame : c.Frame size m m') (below : v.index < size) :
    c.Has args m' v ty x :=
  ⟨has.holds, (frame.datum below).trans has.datum⟩

theorem Has.congr {x : Int} (has : c.Has args m v ty x) (alike : ty.Alike other) : c.Has args m v other x :=
  ⟨(alike.holds x).1 has.holds, by rw [has.datum, alike.word]⟩

theorem Arrives.refl (here : m.At q) : c.Arrives args m size q m := ⟨⟨0, .refl m⟩, here, .refl m⟩

theorem Arrives.trans (first : c.Arrives args m size q m') (second : c.Arrives args m' size' q' m'')
    (lt : size ≤ size') : c.Arrives args m size q' m'' := by
  obtain ⟨n, steps⟩ := first.steps
  obtain ⟨k, more⟩ := second.steps
  exact ⟨⟨n + k, steps.trans more⟩, second.here, first.frame.trans second.frame lt⟩

theorem Arrives.halts {effect : Effect} (first : c.Arrives args m size q m')
    (halts : c.graph.Halts args m' effect) : c.graph.Halts args m effect := by
  obtain ⟨n, steps⟩ := first.steps
  exact steps.halts halts

theorem Gives.congr (gives : c.Gives args m size q v ty r) (alike : ty.Alike other) :
    c.Gives args m size q v other r := by
  cases r with
  | none => exact gives
  | some x =>
    obtain ⟨m', arrives, has⟩ := gives
    exact ⟨m', arrives, has.congr alike⟩

theorem Arrives.gives (first : c.Arrives args m size q m') (second : c.Gives args m' size' q' v ty r)
    (bound : size ≤ size') : c.Gives args m size q' v ty r := by
  cases r with
  | none => exact first.halts second
  | some x =>
    obtain ⟨m'', arrives, has⟩ := second
    exact ⟨m'', first.trans arrives bound, has⟩

theorem Gives.bind {u : ValueId} {ty' : Ty} {next : Int → Option Int} (first : c.Gives args m size q u ty r)
    (lt : size ≤ size') (second : ∀ x m', r = some x → c.Arrives args m size q m' → c.Has args m' u ty x →
      c.Gives args m' size' q' v ty' (next x)) : c.Gives args m size q' v ty' (r.bind next) := by
  cases r with
  | none => exact first
  | some x =>
    obtain ⟨m', arrives, has⟩ := first
    exact arrives.gives (second x m' rfl arrives has) lt

end Run

section Instructions
variable {c : Plan} {args : List Datum} {m : Machine} {p q : Spot} {op : Opcode} {ty : Ty}
  {ops : List ValueId} {attr : Attr} {i : ValueId}
variable {a b : ValueId}

theorem Puts.execute (put : c.Puts p op ty ops attr i q) (here : m.At p) :
    c.graph.execute args m = c.graph.perform args m i ⟨op, p.block, attr⟩ := by
  unfold Graph.execute
  rw [here.block, here.index, put.listed]
  dsimp only
  rw [put.kind]

theorem Puts.arrives (put : c.Puts p op ty ops attr i q) (here : m.At p) (notSlot : op ≠ .alloca)
    {res : Datum} (taken : c.graph.execute args m = .goes (m.put i res)) :
    c.Arrives args m p.size q (m.put i res) := by
  refine ⟨⟨1, .one taken⟩, ⟨?_, ?_⟩, ⟨?_, ?_, fun _ _ => rfl⟩⟩
  · rw [put.next]
    exact here.block
  · rw [put.next]
    exact congrArg (· + 1) here.index
  · intro v below
    have other : v ≠ i := by
      rintro rfl
      rw [put.fresh] at below
      exact Nat.lt_irrefl _ below
    exact if_neg other
  · intro v isSlot
    have other : v ≠ i := by
      rintro rfl
      rw [Graph.opcode?_eq put.kind] at isSlot
      exact notSlot (Option.some.inj isSlot)
    exact if_neg other

def putting (m : Machine) (inst : ValueId) : Option Datum → Effect
  | some result => .goes (m.put inst result)
  | none => .stuck

/-- An instruction gives what it computes from its operands. -/
theorem Puts.gives {r : Option Int} (put : c.Puts p op ty ops attr i q) (here : m.At p)
    (computes : op.family = .binary ∨ op.family = .cast ∨ op = .icmp ∨ op = .load) (integer : ty.isInteger)
    (h : ∀ x ∈ r, ty.Holds x) (res : c.graph.result? args m i ⟨op, p.block, attr⟩ = r.map ty.word) :
    c.Gives args m p.size q i ty r := by
  have performed : c.graph.execute args m =
      putting m i ((c.graph.result? args m i ⟨op, p.block, attr⟩).filter (·.fits (c.graph.ty? i))) := by
    rw [put.execute here]
    rcases computes with isBinary | isCast | rfl | rfl
    · cases op <;> first | rfl | cases isBinary
    · cases op <;> first | rfl | cases isCast
    · rfl
    · rfl
  have notSlot : op ≠ .alloca := by
    rintro rfl
    simp [Opcode.family] at computes
  rw [res, put.ty] at performed
  cases r with
  | none =>
    apply Graph.halts_of_execute performed
    intro next
    exact Effect.noConfusion
  | some x =>
    rw [Option.map_some, Option.filter_some, if_pos (ty.fits_word rfl integer x)] at performed
    refine ⟨_, put.arrives here notSlot performed, h x rfl, ?_⟩
    unfold Graph.datum
    rw [put.kind]
    exact if_pos rfl

theorem Puts.result?_load {ptr : ValueId} (put : c.Puts p .load ty [ptr] .none i q) :
    c.graph.result? args m i ⟨.load, p.block, .none⟩ =
      (c.graph.datum args m ptr).bind fun ptr => ptr.cell?.bind m.memory := by
  unfold Graph.result?
  rw [put.operands]
  rfl

private theorem Puts.result?_cast (put : c.Puts p op ty [a] .none i q) (isCast : op.isCast) :
    c.graph.result? args m i ⟨op, p.block, .none⟩ =
      (c.graph.datum args m a).bind fun a => ty.bitWidth.bind fun width => a.cast? op width := by
  unfold Graph.result?
  rw [put.operands, put.ty]
  cases op <;> first | rfl | cases isCast

theorem Puts.result?_binary (put : c.Puts p op ty [a, b] .none i q) :
    c.graph.result? args m i ⟨op, p.block, .none⟩ =
      (c.graph.datum args m a).bind fun a => (c.graph.datum args m b).bind (Datum.binary? op a) := by
  unfold Graph.result?
  rw [put.operands]
  cases op <;> rfl

theorem Puts.result?_icmp {pred : Predicate} (put : c.Puts p .icmp ty [a, b] (.icmp pred) i q) :
    c.graph.result? args m i ⟨.icmp, p.block, .icmp pred⟩ =
      (c.graph.datum args m a).bind fun a => (c.graph.datum args m b).bind (Datum.compare? pred a) := by
  unfold Graph.result?
  rw [put.operands]
  rfl

end Instructions

section Variables
variable (c : Plan)

structure Sound (ty : Ty) : Prop where
  distinct : ∀ place place' cell, c.cell? place = some cell → c.cell? place' = some cell → place = place'
  slotted : ∀ slot ∈ c.result, ∃ name, c.Slotted slot ty (some name)
  apart : ∀ slot ∈ c.result, ∀ place, c.cell? place ≠ some slot
  integer : ∀ slot ∈ c.result, ty.isInteger
  void : c.result = none → ty.isVoid

structure Agrees (store : Store) (m : Machine) : Prop where
  seated : ∀ v ∈ c.graph.code c.entry, c.graph.opcode? v = some .alloca →
    m.registers v = some (.address v)
  holds : ∀ place cell ty, c.cell? place = some cell → c.Cell cell ty →
    m.memory cell = (store place).map ty.word ∧ ∀ x ∈ store place, ty.Holds x

variable {c} {args : List Datum} {m m' : Machine} {store : Store} {size : Nat} {p q : Spot} {v w : ValueId}
  {ty : Ty}

theorem not_temporary {slot : ValueId} {n : String} (slotted : c.Slotted slot ty (some n)) :
    ¬ c.Temporary slot := by
  rintro ⟨_, temporary⟩
  cases slotted.kind.symm.trans temporary.kind

theorem Cell.lasting (cell : c.Cell v ty) : ¬ c.Temporary v := by
  rcases cell.kind with ⟨n, hit⟩ | ⟨_, n, slotted⟩
  · rintro ⟨_, temporary⟩
    cases hit.symm.trans temporary.kind
  · exact not_temporary slotted

theorem Agrees.kept (agrees : c.Agrees store m) (frame : c.Frame size m m') : c.Agrees store m' := by
  refine ⟨?_, ?_⟩
  · intro v mem isSlot
    rw [frame.slots v isSlot]
    exact agrees.seated v mem isSlot
  · intro place cell ty hit isCell
    rw [frame.memory cell isCell.lasting]
    exact agrees.holds place cell ty hit isCell

theorem Slotted.datum {n : Option String} (slotted : c.Slotted v ty n) (agrees : c.Agrees store m) :
    c.graph.datum args m v = some (.address v) := by
  unfold Graph.datum
  rw [slotted.kind]
  exact agrees.seated v slotted.listed (Graph.opcode?_eq slotted.kind)

theorem Cell.datum (cell : c.Cell v ty) (agrees : c.Agrees store m) :
    c.graph.datum args m v = some (.address v) := by
  rcases cell.kind with ⟨n, hit⟩ | ⟨_, n, slotted⟩
  · unfold Graph.datum
    rw [hit]
  · exact slotted.datum agrees

theorem Loads.gives {place : Place} (loads : c.Loads p v w q) (cell : c.Cell v ty)
    (isCell : c.cell? place = some v) (integer : ty.isInteger) (agrees : c.Agrees store m) (here : m.At p) :
    c.Gives args m p.size q w ty (store place) := by
  have put := loads.of_cell cell
  have alike := ty.alike_unqualified
  obtain ⟨content, h⟩ := agrees.holds place v ty isCell cell
  refine (put.gives here (.inr (.inr (.inr rfl))) (by rwa [alike.isInteger]) ?_ ?_).congr alike
  · intro x hit
    exact (alike.holds x).2 (h x hit)
  · rw [put.result?_load, cell.datum agrees, alike.word, ← content]
    rfl

end Variables

section Words
variable {c : Plan} {args : List Datum} {m : Machine} {p q : Spot} {v w : ValueId} {source ty : Ty} {x : Int}

private theorem castOp_none (isSource : source.isInteger) (integer : ty.isInteger)
    (none : Builder.castOp source ty = none) : source.width = ty.width := by
  unfold Builder.castOp at none
  rw [Ty.bitWidth_of_isInteger isSource, Ty.bitWidth_of_isInteger integer] at none
  dsimp only at none
  split at none
  · cases none
  · split at none
    · cases none
    · omega

private theorem cast?_word {op : Opcode} (isSource : source.isInteger) (integer : ty.isInteger) (h : source.Holds x)
    (hit : Builder.castOp source ty = some op) : (source.word x).cast? op ty.width = some (.ofInt ty.width x) := by
  unfold Builder.castOp at hit
  rw [Ty.bitWidth_of_isInteger isSource, Ty.bitWidth_of_isInteger integer] at hit
  dsimp only at hit
  show (op.cast? (BitVec.ofInt source.width x) ty.width).map _ = _
  split at hit
  next wider =>
    cases hit
    cases signed : source.isSigned with
    | true =>
      show (if _ then _ else _ : Option _).map _ = _
      rw [if_pos wider, h.signExtend signed]
      rfl
    | false =>
      show (if _ then _ else _ : Option _).map _ = _
      rw [if_pos wider, h.zeroExtend signed]
      rfl
  next =>
    split at hit
    next narrower =>
      cases hit
      show (if _ then _ else _ : Option _).map _ = _
      rw [if_pos narrower, truncate_ofInt (Nat.le_of_lt narrower)]
      rfl
    next => cases hit

/-- A cast gives the integer of the other type. -/
theorem Converts.gives (converts : c.Converts p v ty w q) (typed : c.Typed v source)
    (isSource : source.isInteger) (integer : ty.isInteger) (here : m.At p) (has : c.Has args m v source x) :
    c.Gives args m p.size q w ty (some (ty.wrap x)) := by
  obtain ⟨own, isOwn, alike⟩ := typed
  cases converts with
  | same isTy none =>
    cases isOwn.symm.trans isTy
    have widths : source.width = ty.width := by
      rw [← alike.width]
      exact castOp_none (by rwa [alike.isInteger]) integer none
    refine ⟨m, .refl here, ty.holds_wrap x, ?_⟩
    rw [has.datum, Ty.word_wrap, Ty.word, widths]
  | cast isTy hit put =>
    cases isOwn.symm.trans isTy
    have isCast := Builder.castOp_isCast hit
    have eq := ty.alike_unqualified
    refine (put.gives here (.inr (.inl (by simpa [Opcode.isCast] using isCast))) (by rwa [eq.isInteger]) ?_ ?_).congr eq
    · intro y isResult
      cases isResult
      exact (eq.holds _).2 (ty.holds_wrap x)
    · rw [put.result?_cast isCast, has.datum, eq.bitWidth, Ty.bitWidth_of_isInteger integer, eq.word,
        Option.map_some, Ty.word_wrap, ← alike.word]
      exact cast?_word (by rwa [alike.isInteger]) integer ((alike.holds x).2 has.holds) hit

end Words
end Plan
end Midend
