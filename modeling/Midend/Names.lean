import Midend.Graph.Kind

/-! Printable names for the values of a function. A value with a name of its own keeps
it, with the first free number behind it if another value has it already. The other
values are numbered in the order in which they are named. -/
namespace Midend

structure Names where
  next : Nat := 0
  given : List (ValueId × String) := []
deriving DecidableEq, Repr, Inhabited

namespace Names

def get? (names : Names) (id : ValueId) : Option String := names.given.lookup id

def candidate (hint : String) : Nat → String
  | 0 => hint
  | n + 1 => hint ++ toString (n + 1)

/-- The names given that start with a wish, the oldest first. No other name can be one of
its candidates. -/
def rivals (names : Names) (hint : String) : List String :=
  (names.given.map (·.2)).reverse.filter fun name => hint.toList.isPrefixOf name.toList

/-- The first candidate from a number on that no rival has. Candidates differ from each
other, so a rival that has one of them does not count for the next. -/
def firstFree (hint : String) (rivals : List String) (n : Nat) : String :=
  if _taken : candidate hint n ∈ rivals then
    firstFree hint (rivals.erase (candidate hint n)) (n + 1)
  else candidate hint n
termination_by rivals.length
decreasing_by
  have smaller := List.length_erase_of_mem _taken
  have positive := List.length_pos_of_mem _taken
  omega

def free (names : Names) (hint : String) : String := firstFree hint (names.rivals hint) 0

def name (names : Names) (id : ValueId) (hint : Option String) : String × Names :=
  match names.get? id with
  | some name => (name, names)
  | none =>
    match hint with
    | some hint =>
      let name := names.free hint
      (name, { names with given := (id, name) :: names.given })
    | none =>
      let name := toString names.next
      (name, { next := names.next + 1, given := (id, name) :: names.given })

@[simp]
theorem get?_name (names : Names) (id : ValueId) (hint : Option String) :
    (names.name id hint).2.get? id = some (names.name id hint).1 := by
  unfold name
  split
  · assumption
  · split <;> simp [get?]

/-- A value keeps its name. -/
theorem name_of_get? {names : Names} {id : ValueId} {name : String}
    (named : names.get? id = some name) (hint : Option String) :
    names.name id hint = (name, names) := by
  simp [Names.name, named]

theorem get?_name_of_ne (names : Names) {id other : ValueId} (different : other ≠ id)
    (hint : Option String) : (names.name id hint).2.get? other = names.get? other := by
  unfold name
  split
  · rfl
  · split <;> simp [get?, List.lookup_cons, beq_eq_false_iff_ne.2 different]

end Names
end Midend
