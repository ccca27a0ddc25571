/-! Names bound in nested scopes. The global scope is always there; the scopes
opened inside it form a stack, innermost first. -/
namespace Midend

abbrev Bindings (α : Type) := List (String × α)

structure ScopeTable (α : Type) where
  inner : List (Bindings α) := []
  outermost : Bindings α := []
deriving Repr, Inhabited

namespace ScopeTable
variable {α : Type}

def push (table : ScopeTable α) : ScopeTable α :=
  { table with inner := [] :: table.inner }

def pop (table : ScopeTable α) : ScopeTable α :=
  { table with inner := table.inner.tail }

def insert (table : ScopeTable α) (name : String) (value : α) : ScopeTable α :=
  match table.inner with
  | [] => { table with outermost := (name, value) :: table.outermost }
  | scope :: rest => { table with inner := ((name, value) :: scope) :: rest }

def insertGlobal (table : ScopeTable α) (name : String) (value : α) : ScopeTable α :=
  { table with outermost := (name, value) :: table.outermost }

def lookup (table : ScopeTable α) (name : String) : Option α :=
  (table.inner.findSome? (·.lookup name)).or (table.outermost.lookup name)

def remove (table : ScopeTable α) (name : String) : ScopeTable α where
  inner := table.inner.map fun scope => scope.filter (·.1 ≠ name)
  outermost := table.outermost.filter (·.1 ≠ name)

end ScopeTable
end Midend
