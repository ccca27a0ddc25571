import Midend.Scope

/-! Scopes that are opened and left. What was bound in a scope is forgotten with it; what was bound globally or
unbound meanwhile stays so. -/
namespace Midend.ScopeTable
variable {α : Type}

def scopeCount (table : ScopeTable α) : Nat := table.inner.length + 1

inductive Command (α : Type) where
  | insert (name : String) (value : α)
  | insertGlobal (name : String) (value : α)
  | remove (name : String)
  | lookup (name : String)
  | push
  | pop

namespace Command

def run (table : ScopeTable α) : Command α → ScopeTable α
  | .insert name value => table.insert name value
  | .insertGlobal name value => table.insertGlobal name value
  | .remove name => table.remove name
  | .lookup _ => table
  | .push => table.push
  | .pop => table.pop

/-- Whether a command does more than to change the scopes that were opened last. -/
def lasts : Command α → Bool
  | .insertGlobal _ _ | .remove _ => true
  | _ => false

/-- Commands leave the scopes that they open, and besides as many as are given. -/
def nested : Nat → List (Command α) → Bool
  | depth, [] => depth == 0
  | depth, .push :: rest => nested (depth + 1) rest
  | 0, .pop :: _ => false
  | depth + 1, .pop :: rest => nested depth rest
  | depth, _ :: rest => nested depth rest

end Command

def under (table : ScopeTable α) (opened : List (Bindings α)) : ScopeTable α :=
  { table with inner := opened ++ table.inner }

/-- Of commands in nested scopes, those that last do to the table below what they do to it alone. -/
private theorem foldl_under (commands : List (Command α)) {depth : Nat} (nested : Command.nested depth commands)
    (table : ScopeTable α) (opened : List (Bindings α)) (length : opened.length = depth + 1) :
    ∃ sc, commands.foldl Command.run (table.under opened) =
      ((commands.filter Command.lasts).foldl Command.run table).under [sc] := by
  induction commands generalizing depth table opened with
  | nil =>
    rw [Command.nested, beq_iff_eq] at nested
    rw [nested, List.length_eq_one_iff] at length
    obtain ⟨sc, rfl⟩ := length
    exact ⟨sc, rfl⟩
  | cons command tl ih =>
    obtain ⟨sc, outer, rfl⟩ := List.exists_cons_of_length_eq_add_one length
    cases command with
    | insert n val => exact ih nested table (((n, val) :: sc) :: outer) length
    | insertGlobal n val => exact ih nested (table.insertGlobal n val) (sc :: outer) length
    | remove n =>
      have apart : (table.under (sc :: outer)).remove n =
          (table.remove n).under ((sc :: outer).map fun sc => sc.filter (·.1 ≠ n)) := by
        simp only [remove, under, List.map_append]
      rw [List.foldl_cons, Command.run, apart]
      exact ih nested (table.remove n) _ (by rw [List.length_map, length])
    | lookup n => exact ih nested table (sc :: outer) length
    | push => exact ih nested table ([] :: sc :: outer) (congrArg Nat.succ length)
    | pop =>
      cases depth with
      | zero => cases nested
      | succ depth => exact ih nested table outer (Nat.succ.inj length)

private theorem scopeCount_lasting (commands : List (Command α)) (table : ScopeTable α) :
    ((commands.filter Command.lasts).foldl Command.run table).scopeCount = table.scopeCount := by
  induction commands generalizing table with
  | nil => rfl
  | cons command tl ih =>
    cases command with
    | remove n => exact (ih (table.remove n)).trans (congrArg Nat.succ (List.length_map _))
    | insertGlobal n val => exact ih (table.insertGlobal n val)
    | _ => exact ih table

/-- Whatever is done in a scope, with further scopes opened and left in it: when it is left, there are as many scopes
as before, and every name stands for what it would stand for if only the global bindings had been made and the names
unbound. -/
theorem left_scope_forgotten (table : ScopeTable α) {commands : List (Command α)}
    (nested : Command.nested 0 commands) :
    (commands.foldl Command.run table.push).pop.scopeCount = table.scopeCount ∧
      ∀ name, (commands.foldl Command.run table.push).pop.lookup name =
        ((commands.filter Command.lasts).foldl Command.run table).lookup name := by
  obtain ⟨scope, done⟩ := foldl_under commands nested table [[]] rfl
  have left : (commands.foldl Command.run table.push).pop =
      (commands.filter Command.lasts).foldl Command.run table := congrArg pop done
  exact ⟨by rw [left, scopeCount_lasting], fun name => by rw [left]⟩

/-- A name that is bound anew, unbound and bound globally in scopes one inside the other. -/
theorem left_scope_forgotten_shadowing :
    let commands : List (Command Nat) := [.insert "x" 2, .push, .insert "x" 3, .remove "x", .pop, .insertGlobal "y" 4, .insert "y" 5]
    let table : ScopeTable Nat := ⟨[[("x", 1)]], [("x", 0)]⟩
    Command.nested 0 commands ∧ (commands.foldl Command.run table.push).lookup "y" = some 5 ∧
      (commands.foldl Command.run table.push).pop.lookup "y" = some 4 ∧
      (commands.foldl Command.run table.push).pop.scopeCount = 2 := by
  intro commands table
  obtain ⟨count, names⟩ := @left_scope_forgotten _ table commands (by decide)
  exact ⟨by decide, by decide, (names "y").trans (by decide), count⟩

end Midend.ScopeTable
