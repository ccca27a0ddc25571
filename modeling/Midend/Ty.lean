/-! The types that annotate a program and its generated code. A `const` qualifier
may stand at any level; every question about a type looks through the outermost
ones. -/
namespace Midend

inductive Ty where
  | void
  | bool
  | int8
  | int32
  | uint8
  | uint32
  | str
  | label
  | const (inner : Ty)
  | pointer (pointee : Ty)
  | func (params : List Ty) (ret : Ty)
deriving Repr, Inhabited

namespace Ty

mutual
def same : Ty → Ty → Bool
  | .void, .void | .bool, .bool | .int8, .int8 | .int32, .int32 | .uint8, .uint8
  | .uint32, .uint32 | .str, .str | .label, .label => true
  | .const a, .const b => same a b
  | .pointer a, .pointer b => same a b
  | .func ps r, .func qs s => sameList ps qs && same r s
  | _, _ => false

def sameList : List Ty → List Ty → Bool
  | [], [] => true
  | a :: as, b :: bs => same a b && sameList as bs
  | _, _ => false
end

mutual
theorem same_iff : ∀ a b : Ty, same a b = true ↔ a = b
  | .void, b | .bool, b | .int8, b | .int32, b | .uint8, b | .uint32, b | .str, b
  | .label, b => by cases b <;> simp [same]
  | .const a, b => by cases b <;> simp [same, same_iff a]
  | .pointer a, b => by cases b <;> simp [same, same_iff a]
  | .func ps r, b => by cases b <;> simp [same, sameList_iff ps, same_iff r]

theorem sameList_iff : ∀ as bs : List Ty, sameList as bs = true ↔ as = bs
  | [], bs => by cases bs <;> simp [sameList]
  | a :: as, bs => by cases bs <;> simp [sameList, same_iff a, sameList_iff as]
end

instance : DecidableEq Ty := fun a b => decidable_of_iff _ (same_iff a b)

def constant : Ty → Ty
  | .const inner => .const inner
  | ty => .const ty

def unqualified : Ty → Ty
  | .const inner => inner.unqualified
  | ty => ty

@[simp]
theorem unqualified_const (ty : Ty) : (Ty.const ty).unqualified = ty.unqualified := by
  rw [unqualified]

@[simp]
theorem unqualified_unqualified (ty : Ty) : ty.unqualified.unqualified = ty.unqualified := by
  fun_induction unqualified ty with
  | case1 _ ih => exact ih
  | case2 ty notConst => cases ty <;> simp_all [unqualified]

/-- No qualifier is left at the top. -/
theorem unqualified_ne_const (ty inner : Ty) : ty.unqualified ≠ .const inner := by
  fun_induction unqualified ty with
  | case1 _ ih => exact ih
  | case2 ty notConst => exact notConst inner

def isVoid (ty : Ty) : Bool :=
  match ty.unqualified with
  | .void => true
  | _ => false

def isBool (ty : Ty) : Bool :=
  match ty.unqualified with
  | .bool => true
  | _ => false

def isInteger (ty : Ty) : Bool :=
  match ty.unqualified with
  | .bool | .int8 | .int32 | .uint8 | .uint32 => true
  | _ => false

def isSigned (ty : Ty) : Bool :=
  match ty.unqualified with
  | .int8 | .int32 => true
  | _ => false

def isPointer (ty : Ty) : Bool :=
  match ty.unqualified with
  | .pointer _ => true
  | _ => false

def isFunc (ty : Ty) : Bool :=
  match ty.unqualified with
  | .func _ _ => true
  | _ => false

def bitWidth (ty : Ty) : Option Nat :=
  match ty.unqualified with
  | .bool => some 1
  | .int8 | .uint8 => some 8
  | .int32 | .uint32 => some 32
  | _ => none

/-- The width, with zero for types that have none, so that every integer type is
wider than every other type. -/
def width (ty : Ty) : Nat := ty.bitWidth.getD 0

@[simp]
theorem bitWidth_unqualified (ty : Ty) : ty.unqualified.bitWidth = ty.bitWidth := by
  simp [bitWidth]

@[simp]
theorem width_unqualified (ty : Ty) : ty.unqualified.width = ty.width := by
  simp [width]

def pointee? (ty : Ty) : Option Ty :=
  match ty.unqualified with
  | .pointer inner => some inner
  | _ => none

def returnType? (ty : Ty) : Option Ty :=
  match ty.unqualified with
  | .func _ ret => some ret
  | _ => none

def paramTypes (ty : Ty) : List Ty :=
  match ty.unqualified with
  | .func params _ => params
  | _ => []

/-- The type that both operands of a binary operation are brought to: the wider
one, and the left one when neither is wider. -/
def common (lhs rhs : Ty) : Ty :=
  if lhs.width < rhs.width then rhs.unqualified else lhs.unqualified

theorem width_common (lhs rhs : Ty) : (common lhs rhs).width = max lhs.width rhs.width := by
  unfold common
  split <;> rw [width_unqualified] <;> omega

mutual
def text : Ty → String
  | .void => "void"
  | .bool => "i1"
  | .int8 => "i8"
  | .int32 => "i32"
  | .uint8 => "u8"
  | .uint32 => "u32"
  | .str => "str"
  | .label => "label"
  | .const inner => inner.text
  | .pointer pointee => pointee.text ++ "*"
  | .func params ret => ret.text ++ " (" ++ paramsText params ++ ")"

def paramsText : List Ty → String
  | [] => ""
  | [last] => last.text
  | first :: second :: rest => first.text ++ ", " ++ paramsText (second :: rest)
end

@[simp]
theorem text_unqualified (ty : Ty) : ty.unqualified.text = ty.text := by
  fun_induction unqualified ty with
  | case1 _ ih => rw [ih, text]
  | case2 => rfl

end Ty
end Midend
