import Mathlib
import Midend.Lower.Expr

/-! Integers of the source language and words of the generated code. An expression has an
integer in the range of its type as its value; the code computes with words of a width.
Operators are given a meaning on both sides, and the words of integers are computed as the
integers are. -/
namespace Midend
open Option BitVec

private theorem emod_two_pow_nonneg (x : Int) (width : Nat) : 0 ≤ x % (2 ^ width : Nat) := by
  have positive := Nat.two_pow_pos width
  exact Int.emod_nonneg x (by omega)

namespace Ty
variable {ty : Ty} {x : Int}

/-- The integer of a type that differs from a given one by a multiple of the number of
its values. -/
def wrap (ty : Ty) (x : Int) : Int :=
  if ty.isSigned then x.bmod (2 ^ ty.width) else x % (2 ^ ty.width : Nat)

def Holds (ty : Ty) (x : Int) : Prop := ty.wrap x = x

@[simp]
theorem isSigned_unqualified (ty : Ty) : ty.unqualified.isSigned = ty.isSigned := by
  simp [isSigned]

@[simp]
theorem isInteger_unqualified (ty : Ty) : ty.unqualified.isInteger = ty.isInteger := by
  simp [isInteger]

@[simp]
theorem isBool_unqualified (ty : Ty) : ty.unqualified.isBool = ty.isBool := by
  simp [isBool]

@[simp]
theorem wrap_unqualified (ty : Ty) : ty.unqualified.wrap = ty.wrap := by
  funext x
  simp [wrap]

def Alike (ty other : Ty) : Prop := ty.unqualified = other.unqualified

instance (ty other : Ty) : Decidable (ty.Alike other) :=
  inferInstanceAs (Decidable (ty.unqualified = other.unqualified))

namespace Alike
variable {ty other left right left' right' : Ty}

section
variable (alike : ty.Alike other)
include alike

theorem width : ty.width = other.width := by
  rw [← width_unqualified, alike, width_unqualified]

theorem bitWidth : ty.bitWidth = other.bitWidth := by
  rw [← bitWidth_unqualified, alike, bitWidth_unqualified]

theorem isInteger : ty.isInteger = other.isInteger := by
  rw [← isInteger_unqualified, alike, isInteger_unqualified]

theorem isBool : ty.isBool = other.isBool := by
  rw [← isBool_unqualified, alike, isBool_unqualified]

theorem wrap : ty.wrap = other.wrap := by
  rw [← wrap_unqualified, alike, wrap_unqualified]

theorem holds (x : Int) : ty.Holds x ↔ other.Holds x := by
  unfold Holds
  rw [alike.wrap]

end

theorem common (lefts : left.Alike left') (rights : right.Alike right') : left.common right = left'.common right' := by
  unfold Ty.common
  rw [lefts.width, rights.width, lefts, rights]

end Alike

theorem alike_unqualified (ty : Ty) : ty.unqualified.Alike ty := unqualified_unqualified ty

theorem common_cases (left right : Ty) : (left.common right).Alike left ∧ right.width ≤ left.width ∨
      (left.common right).Alike right ∧ left.width < right.width := by
  unfold common
  split
  next wider => exact .inr ⟨alike_unqualified right, wider⟩
  next other => exact .inl ⟨alike_unqualified left, Nat.not_lt.1 other⟩

theorem isInteger_common {left right : Ty} (isLeft : left.isInteger) (isRight : right.isInteger) :
    (left.common right).isInteger := by
  rcases common_cases left right with ⟨alike, _⟩ | ⟨alike, _⟩
  · rw [alike.isInteger]
    exact isLeft
  · rw [alike.isInteger]
    exact isRight

theorem bitWidth_of_isInteger (integer : ty.isInteger) : ty.bitWidth = some ty.width := by
  unfold isInteger at integer
  unfold width bitWidth
  split at integer <;> simp_all

theorem width_of_isBool (isBool : ty.isBool) : ty.width = 1 := by
  unfold Ty.isBool at isBool
  unfold width bitWidth
  split at isBool <;> simp_all

theorem isSigned_of_isBool (isBool : ty.isBool) : ty.isSigned = false := by
  unfold Ty.isBool at isBool
  unfold isSigned
  split at isBool <;> simp_all

private theorem wrap_wrap (ty : Ty) (x : Int) : ty.wrap (ty.wrap x) = ty.wrap x := by
  unfold wrap
  split
  · exact Int.bmod_bmod
  · exact Int.emod_emod_of_dvd x (Int.dvd_refl _)

theorem holds_wrap (ty : Ty) (x : Int) : ty.Holds (ty.wrap x) := wrap_wrap ty x

theorem ofInt_wrap (ty : Ty) (x : Int) : BitVec.ofInt ty.width (ty.wrap x) = BitVec.ofInt ty.width x := by
  apply eq_of_toInt_eq
  rw [toInt_ofInt, toInt_ofInt, wrap]
  split
  · exact Int.bmod_bmod
  · exact Int.emod_bmod x _

namespace Holds
variable {ty : Ty} {x y : Int}

theorem wrap (h : ty.Holds x) : ty.wrap x = x := h

theorem toInt (h : ty.Holds x) (signed : ty.isSigned) : (BitVec.ofInt ty.width x).toInt = x := by
  rw [toInt_ofInt]
  have inRange := h.wrap
  rwa [Ty.wrap, if_pos signed] at inRange

private theorem nonneg (h : ty.Holds x) (unsigned : ty.isSigned = false) : 0 ≤ x := by
  have inRange := h.wrap
  rw [Ty.wrap, unsigned, if_neg Bool.false_ne_true] at inRange
  rw [← inRange]
  exact emod_two_pow_nonneg x _

theorem toNat (h : ty.Holds x) (unsigned : ty.isSigned = false) : ((BitVec.ofInt ty.width x).toNat : Int) = x := by
  have inRange := h.wrap
  rw [Ty.wrap, unsigned, if_neg Bool.false_ne_true] at inRange
  rw [toNat_ofInt, inRange, Int.toNat_of_nonneg (h.nonneg unsigned)]

theorem inj (left : ty.Holds x) (right : ty.Holds y) : BitVec.ofInt ty.width x = BitVec.ofInt ty.width y ↔ x = y := by
  constructor
  · intro eq
    cases signed : ty.isSigned with
    | true => rw [← left.toInt signed, eq, right.toInt signed]
    | false => rw [← left.toNat signed, eq, right.toNat signed]
  · rintro rfl
    rfl

theorem zero (ty : Ty) : ty.Holds 0 := by
  unfold Holds Ty.wrap
  split <;> simp

private theorem eq_zero_iff (h : ty.Holds x) : BitVec.ofInt ty.width x = 0 ↔ x = 0 := by
  exact h.inj (zero ty)

end Holds

theorem Holds.signExtend (h : ty.Holds x) (signed : ty.isSigned) (width : Nat) :
    (BitVec.ofInt ty.width x).signExtend width = BitVec.ofInt width x := by
  rw [BitVec.signExtend, h.toInt signed]

theorem Holds.zeroExtend (h : ty.Holds x) (unsigned : ty.isSigned = false) (width : Nat) :
    (BitVec.ofInt ty.width x).setWidth width = BitVec.ofInt width x := by
  rw [← ofNat_toNat, ← ofInt_natCast, h.toNat unsigned]

end Ty

theorem truncate_ofInt {width wanted : Nat} (narrower : wanted ≤ width) (x : Int) :
    (BitVec.ofInt width x).setWidth wanted = BitVec.ofInt wanted x := by
  apply eq_of_toNat_eq
  have divides : ((2 ^ wanted : Nat) : Int) ∣ ((2 ^ width : Nat) : Int) :=
    Int.natCast_dvd_natCast.2 (Nat.pow_dvd_pow 2 narrower)
  rw [toNat_setWidth, toNat_ofInt, toNat_ofInt, ← Int.emod_emod_of_dvd x divides,
    Int.toNat_emod (emod_two_pow_nonneg x _) (Int.natCast_nonneg _), Int.toNat_natCast]

namespace Opcode

def compute? (op : Opcode) {width : Nat} (a b : BitVec width) : Option (BitVec width) :=
  match op with
  | .add => some (a + b)
  | .sub => some (a - b)
  | .mul => some (a * b)
  | .udiv => if b = 0 then none else some (a / b)
  | .sdiv => if b = 0 then none else some (a.sdiv b)
  | .urem => if b = 0 then none else some (a % b)
  | .srem => if b = 0 then none else some (a.srem b)
  | .shl => some (a <<< b.toNat)
  | .lshr => some (a >>> b.toNat)
  | .ashr => some (a.sshiftRight b.toNat)
  | .and => some (a &&& b)
  | .or => some (a ||| b)
  | .xor => some (a ^^^ b)
  | _ => none

def cast? (op : Opcode) {width : Nat} (a : BitVec width) (wanted : Nat) : Option (BitVec wanted) :=
  match op with
  | .sext => if width < wanted then some (a.signExtend wanted) else none
  | .zext => if width < wanted then some (a.setWidth wanted) else none
  | .trunc => if wanted < width then some (a.setWidth wanted) else none
  | _ => none

end Opcode

def Predicate.decide (predicate : Predicate) {width : Nat} (a b : BitVec width) : Bool :=
  match predicate with
  | .eq => a == b
  | .ne => a != b
  | .slt => a.slt b
  | .sle => a.sle b
  | .sgt => b.slt a
  | .sge => b.sle a
  | .ult => a.ult b
  | .ule => a.ule b
  | .ugt => b.ult a
  | .uge => b.ule a

/-- The value of an arithmetic expression whose operands have the given types and values. It is
computed at the common type. A divisor must not be zero, the amount of a shift counts as a
number without sign, and a shift to the right copies the sign of what is shifted. -/
def ArithOp.eval (op : ArithOp) (lhs rhs : Ty) (x y : Int) : Option Int :=
  let ty := lhs.common rhs
  let a := ty.wrap x
  let b := ty.wrap y
  let amount := (b % (2 ^ ty.width : Nat)).toNat
  let result := match op with
    | .add => some (a + b)
    | .sub => some (a - b)
    | .mul => some (a * b)
    | .div => if b = 0 then none else some (a.tdiv b)
    | .mod => if b = 0 then none else some (a.tmod b)
    | .bitAnd => some (BitVec.ofInt ty.width a &&& BitVec.ofInt ty.width b).toInt
    | .bitOr => some (BitVec.ofInt ty.width a ||| BitVec.ofInt ty.width b).toInt
    | .bitXor => some (BitVec.ofInt ty.width a ^^^ BitVec.ofInt ty.width b).toInt
    | .leftShift => some (a * (2 ^ amount : Nat))
    | .rightShift => some (x / (2 ^ amount : Nat))
  result.map ty.wrap

def CompareOp.eval (op : CompareOp) (lhs rhs : Ty) (x y : Int) : Bool :=
  let ty := lhs.common rhs
  let a := ty.wrap x
  let b := ty.wrap y
  match op with
  | .equal => a == b
  | .notEqual => a != b
  | .less => a < b
  | .lessEqual => a ≤ b
  | .greater => b < a
  | .greaterEqual => b ≤ a

def truth (holds : Bool) : Int := if holds then 1 else 0

def UnaryOp.eval (op : UnaryOp) (ty : Ty) (x : Int) : Int :=
  match op with
  | .plus => x
  | .minus => ty.wrap (-x)
  | .bitNot => ty.wrap (-1 - x)
  | .logicalNot => truth (x == 0)

section Agreement
variable {lhs rhs : Ty} {x y : Int}
variable {ty : Ty}

theorem ArithOp.isBinary_opcode (op : ArithOp) (lhs rhs : Ty) : (op.opcode lhs rhs).isBinary := by
  cases op <;> simp only [ArithOp.opcode] <;> try split
  all_goals rfl

private theorem ofInt_sub (width : Nat) (x y : Int) :
    BitVec.ofInt width (x - y) = BitVec.ofInt width x - BitVec.ofInt width y := by
  rw [Int.sub_eq_add_neg, ofInt_add, ofInt_neg, sub_eq_add_neg]

private theorem ofInt_mul_two_pow (width : Nat) (x : Int) (amount : Nat) :
    BitVec.ofInt width (x * (2 ^ amount : Nat)) = BitVec.ofInt width x <<< amount := by
  have power : BitVec.ofInt width (2 ^ amount : Nat) = BitVec.twoPow width amount := by
    apply eq_of_toNat_eq
    rw [ofInt_natCast, toNat_ofNat, toNat_twoPow]
  rw [ofInt_mul, power, shiftLeft_eq_mul_twoPow]

private theorem ofInt_toNat {width : Nat} (word : BitVec width) : BitVec.ofInt width word.toNat = word := by
  rw [ofInt_natCast, ofNat_toNat, setWidth_eq]

private theorem div_word (left : ty.Holds x) (right : ty.Holds y) :
    (if ty.isSigned then (BitVec.ofInt ty.width x).sdiv (BitVec.ofInt ty.width y)
      else BitVec.ofInt ty.width x / BitVec.ofInt ty.width y) = BitVec.ofInt ty.width (x.tdiv y) := by
  split
  next signed =>
    apply eq_of_toInt_eq
    rw [toInt_sdiv, left.toInt signed, right.toInt signed, toInt_ofInt]
  next signed =>
    have unsigned : ty.isSigned = false := by simpa using signed
    rw [← ofInt_toNat (_ / _), toNat_udiv, Int.natCast_ediv, left.toNat unsigned, right.toNat unsigned,
      Int.tdiv_eq_ediv_of_nonneg (left.nonneg unsigned)]

private theorem mod_word (left : ty.Holds x) (right : ty.Holds y) :
    (if ty.isSigned then (BitVec.ofInt ty.width x).srem (BitVec.ofInt ty.width y)
      else BitVec.ofInt ty.width x % BitVec.ofInt ty.width y) = BitVec.ofInt ty.width (x.tmod y) := by
  split
  next signed =>
    rw [← ofInt_toInt (x := BitVec.srem _ _), toInt_srem, left.toInt signed, right.toInt signed]
  next signed =>
    have unsigned : ty.isSigned = false := by simpa using signed
    rw [← ofInt_toNat (_ % _), toNat_umod, Int.natCast_emod, left.toNat unsigned, right.toNat unsigned,
      Int.tmod_eq_emod_of_nonneg (left.nonneg unsigned)]

private theorem shiftRight_word {width : Nat} (left : lhs.Holds x) (narrower : lhs.width ≤ width) (amount : Nat) :
    (if lhs.isSigned then (BitVec.ofInt width x).sshiftRight amount
      else BitVec.ofInt width x >>> amount) = BitVec.ofInt width (x / (2 ^ amount : Nat)) := by
  split
  next signed =>
    have val : (BitVec.ofInt width x).toInt = x := by
      rw [← left.signExtend signed, toInt_signExtend_of_le narrower, left.toInt signed]
    rw [← ofInt_toInt (x := BitVec.sshiftRight _ _), toInt_sshiftRight, val, Int.shiftRight_eq_div_pow]
  next signed =>
    have unsigned : lhs.isSigned = false := by simpa using signed
    have val : ((BitVec.ofInt width x).toNat : Int) = x := by
      rw [← left.zeroExtend unsigned, toNat_setWidth_of_le narrower, left.toNat unsigned]
    rw [← ofInt_toNat (_ >>> _), toNat_ushiftRight, Nat.shiftRight_eq_div_pow, Int.natCast_ediv, val]

/-- The chosen instruction computes what the operator means at the common type. -/
theorem ArithOp.compute?_opcode (op : ArithOp) (left : lhs.Holds x) :
    (op.opcode lhs rhs).compute? (BitVec.ofInt (lhs.common rhs).width x) (BitVec.ofInt (lhs.common rhs).width y) =
      (op.eval lhs rhs x y).map (BitVec.ofInt (lhs.common rhs).width ·) := by
  have narrower : lhs.width ≤ (lhs.common rhs).width := by
    rw [Ty.width_common]
    exact Nat.le_max_left _ _
  have inRange := (lhs.common rhs).holds_wrap x
  have inRange' := (lhs.common rhs).holds_wrap y
  have word := (lhs.common rhs).ofInt_wrap
  have amount := toNat_ofInt (n := (lhs.common rhs).width) ((lhs.common rhs).wrap y)
  simp only [ArithOp.eval, map_map, Function.comp_def, word]
  cases op with
  | add =>
    rw [map_some, ofInt_add, word, word]
    rfl
  | sub =>
    rw [map_some, ofInt_sub, word, word]
    rfl
  | mul =>
    rw [map_some, ofInt_mul, word, word]
    rfl
  | bitAnd =>
    rw [map_some, ofInt_toInt]
    rfl
  | bitOr =>
    rw [map_some, ofInt_toInt]
    rfl
  | bitXor =>
    rw [map_some, ofInt_toInt]
    rfl
  | leftShift =>
    rw [map_some, ofInt_mul_two_pow, ← amount, word, word]
    rfl
  | rightShift =>
    rw [map_some, ← shiftRight_word left narrower, ← amount, word]
    unfold opcode
    cases lhs.isSigned <;> rfl
  | div =>
    have divided := div_word inRange inRange'
    have zero := inRange'.eq_zero_iff
    rw [word] at divided zero
    dsimp only [opcode]
    by_cases none : (lhs.common rhs).wrap y = 0
    · rw [if_pos none]
      cases (lhs.common rhs).isSigned <;> exact if_pos (zero.2 none)
    · rw [if_neg none, map_some, ← divided, word]
      cases (lhs.common rhs).isSigned <;> exact if_neg (mt zero.1 none)
  | mod =>
    have reduced := mod_word inRange inRange'
    have zero := inRange'.eq_zero_iff
    rw [word] at reduced zero
    dsimp only [opcode]
    by_cases none : (lhs.common rhs).wrap y = 0
    · rw [if_pos none]
      cases (lhs.common rhs).isSigned <;> exact if_pos (zero.2 none)
    · rw [if_neg none, map_some, ← reduced, word]
      cases (lhs.common rhs).isSigned <;> exact if_neg (mt zero.1 none)

section Order
variable {ty : Ty}

private theorem less_word (left : ty.Holds x) (right : ty.Holds y) :
    (CompareOp.less.predicate ty).decide (BitVec.ofInt ty.width x) (BitVec.ofInt ty.width y) = decide (x < y) := by
  unfold CompareOp.predicate
  rw [Bool.eq_iff_iff, decide_eq_true_iff]
  cases signed : ty.isSigned with
  | true =>
    have lt := slt_iff_toInt_lt (x := BitVec.ofInt ty.width x) (y := BitVec.ofInt ty.width y)
    rwa [left.toInt signed, right.toInt signed] at lt
  | false =>
    have lt := ult_iff_lt (x := BitVec.ofInt ty.width x) (y := BitVec.ofInt ty.width y)
    rwa [lt_def, ← Int.ofNat_lt, left.toNat signed, right.toNat signed] at lt

private theorem lessEqual_word (left : ty.Holds x) (right : ty.Holds y) :
    (CompareOp.lessEqual.predicate ty).decide (BitVec.ofInt ty.width x) (BitVec.ofInt ty.width y) = decide (x ≤ y) := by
  unfold CompareOp.predicate
  rw [Bool.eq_iff_iff, decide_eq_true_iff]
  cases signed : ty.isSigned with
  | true =>
    have le := sle_iff_toInt_le (x := BitVec.ofInt ty.width x) (y := BitVec.ofInt ty.width y)
    rwa [left.toInt signed, right.toInt signed] at le
  | false =>
    have le := ule_iff_le (x := BitVec.ofInt ty.width x) (y := BitVec.ofInt ty.width y)
    rwa [le_def, ← Int.ofNat_le, left.toNat signed, right.toNat signed] at le

private theorem decide_swapped (ty : Ty) {width : Nat} (a b : BitVec width) :
    (CompareOp.greater.predicate ty).decide a b = (CompareOp.less.predicate ty).decide b a ∧
      (CompareOp.greaterEqual.predicate ty).decide a b = (CompareOp.lessEqual.predicate ty).decide b a := by
  unfold CompareOp.predicate
  cases ty.isSigned <;> exact ⟨rfl, rfl⟩

end Order

/-- The chosen predicate decides what the comparison means. -/
theorem CompareOp.decide_predicate (op : CompareOp) (lhs rhs : Ty) (x y : Int) :
    (op.predicate (lhs.common rhs)).decide (BitVec.ofInt (lhs.common rhs).width x)
      (BitVec.ofInt (lhs.common rhs).width y) = op.eval lhs rhs x y := by
  rw [← (lhs.common rhs).ofInt_wrap x, ← (lhs.common rhs).ofInt_wrap y]
  have left := (lhs.common rhs).holds_wrap x
  have right := (lhs.common rhs).holds_wrap y
  cases op with
  | equal => exact Bool.eq_iff_iff.2 (by simpa [predicate, Predicate.decide, eval] using left.inj right)
  | notEqual => exact Bool.eq_iff_iff.2 (by simpa [predicate, Predicate.decide, eval] using not_congr (left.inj right))
  | less => exact less_word left right
  | lessEqual => exact lessEqual_word left right
  | greater =>
    rw [(decide_swapped _ _ _).1]
    exact less_word right left
  | greaterEqual =>
    rw [(decide_swapped _ _ _).2]
    exact lessEqual_word right left

theorem compute?_minus (width : Nat) (x : Int) :
    Opcode.sub.compute? (BitVec.ofInt width 0) (BitVec.ofInt width x) = some (BitVec.ofInt width (-x)) := by
  rw [← Int.zero_sub, ofInt_sub]
  rfl

theorem compute?_bitNot (width : Nat) (x : Int) : Opcode.xor.compute? (BitVec.ofInt width x) (BitVec.ofInt width (-1)) =
      some (BitVec.ofInt width (-1 - x)) := by
  have ones : BitVec.ofInt width (-1) = BitVec.allOnes width := by
    rw [ofInt_neg, ← neg_one_eq_allOnes]
    rfl
  rw [ofInt_sub, ones, allOnes_sub_eq_not, ← xor_allOnes]
  rfl

theorem ofInt_truth (h : Bool) : BitVec.ofInt 1 (truth h) = BitVec.ofBool h := by
  cases h <;> rfl

theorem holds_truth (h : Bool) : Ty.bool.Holds (truth h) := by
  cases h <;> rfl

theorem ArithOp.holds_eval {op : ArithOp} {z : Int} (hit : op.eval lhs rhs x y = some z) :
    (lhs.common rhs).Holds z := by
  obtain ⟨res, _, rfl⟩ := map_eq_some_iff.1 hit
  exact Ty.holds_wrap _ res

end Agreement

end Midend
