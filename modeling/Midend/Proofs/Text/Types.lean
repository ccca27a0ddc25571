import Midend.Ty

/-! Written types can be read back. From its end a written type tells where it begins: the last sign says what
was put around the rest, and no type is written like the end of another. So the text of a type gives the type
without its qualifiers. -/
namespace Midend.Ty
open List

mutual
def bare : Ty → Ty
  | .const inner => inner.bare
  | .pointer pointee => .pointer pointee.bare
  | .func params ret => .func (bareList params) ret.bare
  | ty => ty

def bareList : List Ty → List Ty
  | [] => []
  | ty :: rest => ty.bare :: bareList rest
end

private theorem bare_unqualified (ty : Ty) : ty.unqualified.bare = ty.bare := by
  fun_induction unqualified ty with
  | case1 inner ih => rw [ih, bare]
  | case2 => rfl

private theorem bareList_eq (tys : List Ty) : bareList tys = tys.map bare := by
  induction tys with
  | nil => rfl
  | cons ty tl ih => rw [bareList, ih, map_cons]

mutual
theorem text_bare : ∀ ty : Ty, ty.bare.text = ty.text
  | .const inner => text_bare inner
  | .pointer pointee => by rw [bare, text, text_bare pointee, text]
  | .func params ret => by rw [bare, text, paramsText_bareList params, text_bare ret, text]
  | .void | .bool | .int8 | .int32 | .uint8 | .uint32 | .str | .label => rfl

theorem paramsText_bareList : ∀ tys : List Ty, paramsText (bareList tys) = paramsText tys
  | [] => rfl
  | [last] => text_bare last
  | first :: second :: rest => by
    have more := paramsText_bareList (second :: rest)
    rw [bareList] at more
    rw [bareList, bareList, paramsText, text_bare first, more, paramsText]
end

def back (ty : Ty) : List Char := ty.text.toList.reverse

private theorem back_unqualified (ty : Ty) : ty.unqualified.back = ty.back := by
  rw [back, text_unqualified, back]

private theorem back_pointer (pointee : Ty) : (Ty.pointer pointee).back = '*' :: pointee.back := by
  simp [back, text]

def backParams (tys : List Ty) : List Char := tys.flatMap fun ty => ty.back ++ [' ', ',']

private theorem reverse_paramsText (first : Ty) (tl : List Ty) :
    (paramsText (first :: tl)).toList.reverse = backParams tl.reverse ++ first.back := by
  induction tl generalizing first with
  | nil => simp [paramsText, backParams, back]
  | cons second tl ih => simp [paramsText, ih, backParams, back]

private theorem back_func (params : List Ty) (ret : Ty) :
    (Ty.func params ret).back = ')' :: ((paramsText params).toList.reverse ++ '(' :: ' ' :: ret.back) := by
  simp [back, text]

/-- No type ends where the parameters of a function begin. -/
private theorem back_ne (ty : Ty) (left right : List Char) : ty.back ++ left ≠ '(' :: right := by
  rw [← back_unqualified]
  cases isTop : ty.unqualified with
  | const inner => exact absurd isTop (unqualified_ne_const ty inner)
  | _ => simp [back, text]

private theorem backParams_ne (tys : List Ty) (first : Ty) (left right : List Char) :
    backParams tys ++ (first.back ++ left) ≠ '(' :: right := by
  cases tys with
  | nil => exact back_ne first left right
  | cons ty tys => simpa [backParams] using back_ne ty _ right

def Parts (ty : Ty) : Prop :=
  ∀ (other : Ty) (left right : List Char), ty.back ++ left = other.back ++ right → ty.bare = other.bare ∧ left = right

/-- Only types without a qualifier at the top need to be looked at. -/
private theorem parts_of_unqualified {ty : Ty} (parts : ∀ (other : Ty) left right, (∀ inner, other ≠ .const inner) →
    ty.back ++ left = other.back ++ right → ty.bare = other.bare ∧ left = right) : ty.Parts := by
  intro other left right eq
  rw [← bare_unqualified other]
  exact parts other.unqualified left right (unqualified_ne_const other) (by rw [eq, back_unqualified])

private theorem parts_params {first other : Ty} {tys others : List Ty} {left right : List Char}
    (parts : ∀ ty ∈ first :: tys, ty.Parts)
    (eq : backParams tys ++ (first.back ++ '(' :: left) = backParams others ++ (other.back ++ '(' :: right)) :
    tys.map bare = others.map bare ∧ first.bare = other.bare ∧ left = right := by
  induction tys generalizing others with
  | nil =>
    cases others with
    | nil =>
      obtain ⟨isFirst, tl⟩ := parts first (by simp) other _ _ eq
      exact ⟨rfl, isFirst, (List.cons.inj tl).2⟩
    | cons second others =>
      have tl := (parts first (by simp) second ('(' :: left)
        (' ' :: ',' :: (backParams others ++ (other.back ++ '(' :: right))) (eq.trans (by simp [backParams]))).2
      simp at tl
  | cons ty tys ih =>
    have ho : ty.back ++ (' ' :: ',' :: (backParams tys ++ (first.back ++ '(' :: left))) =
        backParams others ++ (other.back ++ '(' :: right) := by simpa [backParams] using eq
    cases others with
    | nil =>
      have tl := (parts ty (by simp) other _ ('(' :: right) ho).2
      simp at tl
    | cons second others =>
      obtain ⟨isTy, tl⟩ := parts ty (by simp) second _
        (' ' :: ',' :: (backParams others ++ (other.back ++ '(' :: right))) (ho.trans (by simp [backParams]))
      obtain ⟨more, last⟩ := ih (fun ty mem => parts ty (List.Perm.mem_iff (.swap ..) |>.1 (mem_cons_of_mem _ mem)))
        (List.cons.inj (List.cons.inj tl).2).2
      exact ⟨by rw [map_cons, map_cons, isTy, more], last⟩

mutual
/-- The text of a type determines the type, by induction on it. -/
theorem parts : ∀ ty : Ty, ty.Parts
  | .const inner => parts inner
  | .pointer pointee => parts_of_unqualified fun other left right isTop eq => by
    rw [back_pointer] at eq
    cases other with
    | const inner => exact absurd rfl (isTop inner)
    | pointer other =>
      rw [back_pointer] at eq
      obtain ⟨isPointee, tl⟩ := parts pointee other left right (List.cons.inj eq).2
      exact ⟨by rw [bare, isPointee, bare], tl⟩
    | _ => simp [back, text] at eq
  | .func params ret => parts_of_unqualified fun other left right isTop eq => by
    rw [back_func] at eq
    cases other with
    | const inner => exact absurd rfl (isTop inner)
    | func others other =>
      rw [back_func] at eq
      simp only [cons_append, append_assoc, List.cons.injEq, true_and] at eq
      have all := partsAll params
      match params, others, all with
      | [], [], _ =>
        obtain ⟨isRet, tl⟩ := parts ret other left right (List.cons.inj (List.cons.inj eq).2).2
        exact ⟨by rw [bare, isRet, bare], tl⟩
      | [], head :: tl, _ =>
        rw [reverse_paramsText, append_assoc] at eq
        exact absurd eq.symm (backParams_ne _ _ _ _)
      | first :: tl, [], _ =>
        rw [reverse_paramsText, append_assoc] at eq
        exact absurd eq (backParams_ne _ _ _ _)
      | first :: tl, second :: others, all =>
        rw [reverse_paramsText, reverse_paramsText, append_assoc, append_assoc] at eq
        obtain ⟨more, isFirst, t⟩ :=
          parts_params (fun ty mem => all ty (by simpa using mem)) eq
        obtain ⟨isRet, last⟩ := parts ret other left right (List.cons.inj t).2
        rw [map_reverse, map_reverse, reverse_inj] at more
        refine ⟨?_, last⟩
        rw [bare, bare, bareList, bareList, bareList_eq, bareList_eq, isFirst, more, isRet]
    | _ => simp [back, text] at eq
  | .void | .bool | .int8 | .int32 | .uint8 | .uint32 | .str | .label =>
    parts_of_unqualified fun other left right isTop eq => by
      cases other with
      | const inner => exact absurd rfl (isTop inner)
      | _ => simp_all [back, text, bare]

theorem partsAll : ∀ tys : List Ty, ∀ ty ∈ tys, ty.Parts
  | [], _, member => by cases member
  | ty :: tl, other, member => by
    rcases mem_cons.1 member with same | member
    · exact same ▸ parts ty
    · exact partsAll tl other member
end

/-- Two types are written alike exactly if they are the same but for qualifiers. -/
theorem text_eq_iff_bare_eq (ty other : Ty) : ty.text = other.text ↔ ty.bare = other.bare := by
  constructor
  · intro same
    have ends : ty.back ++ [] = other.back ++ [] := by rw [back, same, back]
    exact (parts ty other [] [] ends).1
  · intro same
    rw [← text_bare ty, same, text_bare]

/-- A function and a pointer to it, with and without qualifiers inside. -/
example : (Ty.func [.const .int8, .pointer (.func [] .str)] (.const (.pointer .void))).text =
    "void* (i8, str ()*)" := by decide

end Midend.Ty
