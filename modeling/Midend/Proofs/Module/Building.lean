import Midend.Proofs.Module.Skeleton

/-! The module while a function is being built. The insertion point is at the end of one of
its blocks, names stand for values that are no blocks, and each step fills the current block,
opens new ones or ends it; other blocks stay as they are. -/
namespace Midend
open List

namespace ScopeTable
variable {α : Type} {P Q : α → Prop} {table : ScopeTable α}

structure All (P : α → Prop) (table : ScopeTable α) : Prop where
  inner : ∀ scope ∈ table.inner, ∀ binding ∈ scope, P binding.2
  outermost : ∀ binding ∈ table.outermost, P binding.2

namespace All
variable {val : α} {n : String}

theorem mono (all : table.All P) (weaker : ∀ val, P val → Q val) : table.All Q :=
  ⟨fun sc mem binding lt => weaker _ (all.inner sc mem binding lt),
    fun binding lt => weaker _ (all.outermost binding lt)⟩

theorem push (all : table.All P) : table.push.All P := by
  refine ⟨?_, all.outermost⟩
  intro sc member binding lt
  rcases mem_cons.1 member with rfl | member
  · cases lt
  · exact all.inner sc member binding lt

theorem pop (all : table.All P) : table.pop.All P :=
  ⟨fun sc mem => all.inner sc (mem_of_mem_tail mem), all.outermost⟩

theorem insert (all : table.All P) (h : P val) (n : String) : (table.insert n val).All P := by
  rcases table with ⟨_ | ⟨sc, rest⟩, outermost⟩
  · refine ⟨all.inner, ?_⟩
    intro binding bound
    rcases mem_cons.1 bound with rfl | bound
    · exact h
    · exact all.outermost binding bound
  · refine ⟨?_, all.outermost⟩
    intro other member binding bound
    rcases mem_cons.1 member with rfl | member
    · rcases mem_cons.1 bound with rfl | bound
      · exact h
      · exact all.inner sc mem_cons_self binding bound
    · exact all.inner other (mem_cons_of_mem _ member) binding bound

private theorem of_lookup {bindings : Bindings α} (all : ∀ binding ∈ bindings, P binding.2)
    (hit : bindings.lookup n = some val) : P val := by
  rw [lookup_eq_findSome?] at hit
  obtain ⟨binding, lt, eq⟩ := exists_of_findSome?_eq_some hit
  split at eq
  · cases eq
    exact all binding lt
  · cases eq

theorem lookup (all : table.All P) (hit : table.lookup n = some val) : P val := by
  rcases Option.or_eq_some_iff.1 hit with within | ⟨_, outside⟩
  · obtain ⟨sc, mem, lt⟩ := exists_of_findSome?_eq_some within
    exact of_lookup (all.inner sc mem) lt
  · exact of_lookup all.outermost outside

end All
end ScopeTable

namespace Graph
variable {t g : Graph} {entry v : ValueId}
variable {base : Graph} {b : ValueId}

structure Plain (g : Graph) (v : ValueId) : Prop where
  inside : v.index < g.values.size
  notBlock : g.isBlock v = false

theorem Grows.plain (grows : g.Grows entry t) (plain : g.Plain v) : t.Plain v :=
  ⟨Nat.lt_of_lt_of_le plain.inside grows.size, by rw [grows.isBlock plain.inside]; exact plain.notBlock⟩

theorem plain_of_kind? {k : Kind} (hit : g.kind? v = some k) (notBlock : k.isBlock = false) : g.Plain v :=
  ⟨lt_of_kind? hit, by rw [isBlock, hit]; exact notBlock⟩

theorem Grows.lastOf {last : ValueId} (grows : g.Grows entry t) (coded : base.Coded t entry)
    (above : base.values.size ≤ b.index) (ends : g.lastOf b = some last) :
    t.lastOf b = some last := by
  have isLast := (Option.filter_eq_some_iff.1 ends)
  obtain ⟨front, cs⟩ := getLast?_eq_some_iff.1 isLast.1
  have stays := grows.isTerminator isLast.2
  by_cases isEntry : b = entry
  · subst isEntry
    obtain ⟨more, now, _⟩ := grows.slots front last cs isLast.2
    rw [Graph.lastOf, now, getLast?_concat, Option.filter_some, if_pos stays]
  · obtain ⟨tl, now⟩ := grows.code isEntry
    rcases eq_nil_or_concat tl with rfl | ⟨body, final, rfl⟩
    · rw [Graph.lastOf, ← now, append_nil, cs, getLast?_concat, Option.filter_some, if_pos stays]
    · refine absurd stays (coded.ends b above last ?_)
      rw [← now, cs, concat_eq_append, ← append_assoc, dropLast_concat]
      simp

theorem Grows.exits_eq (grows : g.Grows entry t) (eq : t.lastOf b = g.lastOf b) :
    t.exits b = g.exits b := by
  rw [exits, eq, exits]
  cases ends : g.lastOf b with
  | none => rfl
  | some last =>
    obtain ⟨op, isOp, _⟩ := opcode?_of_isTerminator (lastOf_mem ends).2
    obtain ⟨d, hit, _⟩ := inst_of_opcode? isOp
    show t.targetsOf last = g.targetsOf last
    rw [targetsOf, grows.opcode? isOp, grows.operandsOf last d hit, targetsOf, isOp]

theorem Skeleton.exits_mem {f next : ValueId} (skel : base.Skeleton g f entry)
    (mem : b ∈ g.layout f) (goes : next ∈ g.exits b) : next ∈ g.layout f := by
  cases ends : g.lastOf b with
  | none =>
    rw [exits, ends] at goes
    cases goes
  | some last =>
    have above := ((skel.laid.blocks b).1 mem).1
    rw [exits, ends] at goes
    exact skel.wired.targets last (skel.coded.listed b last above (lastOf_mem ends).1).1 next goes

end Graph

structure Site where
  base : Graph
  func : ValueId
  entry : ValueId
  functions : List ValueId
  globals : List ValueId
  outermost : Bindings ValueId

namespace Site

structure Intact (site : Site) (depth : Nat) (m : Module) : Prop where
  skeleton : site.base.Skeleton m.graph site.func site.entry
  symbols : m.symbols.All m.graph.Plain
  depth : m.symbols.inner.length = depth
  outermost : m.symbols.outermost = site.outermost
  functions : m.functions = site.functions
  globals : m.globals = site.globals
  callable : ∀ f ∈ m.functions, m.graph.Plain f

structure Building (site : Site) (scopes : ScopeTable ValueId) (state : FunctionState) (m : Module)
    (here : ValueId) : Prop extends site.Intact scopes.inner.length m where
  noReturn : ∀ v, site.base.values.size ≤ v.index → m.graph.opcode? v ≠ some .ret
  names : m.symbols = scopes
  current : m.current = some state
  function : state.function = site.func
  entry : state.entry = site.entry
  exit : ∀ block ∈ state.exit, block ∈ m.graph.layout site.func
  returnSlot : ∀ slot ∈ state.returnSlot, m.graph.Plain slot
  point : m.insertPoint = some ⟨here, (m.graph.code here).length⟩
  member : here ∈ m.graph.layout site.func

/-- Code was built from the end of one block to the end of another one. Only the first one,
the entry and new blocks were filled, and except for pending ones the blocks passed through
have ended. -/
structure Advances (site : Site) (g : Graph) (here : ValueId) (after : Graph) (there : ValueId)
    (pending : List ValueId) : Prop where
  grows : g.Grows site.entry after
  layout : g.layout site.func <+: after.layout site.func
  fresh : there = here ∨ g.values.size ≤ there.index
  others : ∀ block, block.index < g.values.size → block ≠ here → block ≠ site.entry →
    after.code block = g.code block
  closed : ∀ block ∈ after.layout site.func, after.lastOf block = none →
    block = there ∨ block ∈ pending ∨ (block ∈ g.layout site.func ∧ block ≠ here)

variable {u : Site} {scs : ScopeTable ValueId} {st : FunctionState}
  {m middle t : Module} {here there : ValueId} {pending later : List ValueId}

structure SameNames (m after : Module) : Prop where
  symbols : after.symbols = m.symbols
  functions : after.functions = m.functions
  globals : after.globals = m.globals
  current : after.current = m.current

theorem Building.here_above (made : u.Building scs st m here) : u.base.values.size ≤ here.index :=
  ((made.skeleton.laid.blocks here).1 made.member).1

theorem Building.here_lt (made : u.Building scs st m here) : here.index < m.graph.values.size :=
  Graph.lt_of_isBlock ((made.skeleton.laid.blocks here).1 made.member).2

theorem Intact.grown {depth : Nat} (intact : u.Intact depth m)
    (skeleton : u.base.Skeleton t.graph u.func u.entry)
    (grows : m.graph.Grows u.entry t.graph) (same : SameNames m t) : u.Intact depth t where
  skeleton := skeleton
  symbols := same.symbols ▸ intact.symbols.mono fun _ plain => grows.plain plain
  depth := same.symbols ▸ intact.depth
  outermost := same.symbols ▸ intact.outermost
  functions := same.functions ▸ intact.functions
  globals := same.globals ▸ intact.globals
  callable := same.functions ▸ fun f mem => grows.plain (intact.callable f mem)

theorem Building.grown (building : u.Building scs st m here)
    (skeleton : u.base.Skeleton t.graph u.func u.entry)
    (noReturn : ∀ v, u.base.values.size ≤ v.index → t.graph.opcode? v ≠ some .ret)
    (grows : m.graph.Grows u.entry t.graph) (layout : m.graph.layout u.func ⊆ t.graph.layout u.func)
    (same : SameNames m t) (point : t.insertPoint = some ⟨there, (t.graph.code there).length⟩)
    (member : there ∈ t.graph.layout u.func) : u.Building scs st t there where
  toIntact := building.toIntact.grown skeleton grows same
  noReturn := noReturn
  names := same.symbols.trans building.names
  current := same.current ▸ building.current
  function := building.function
  entry := building.entry
  exit := fun block isExit => layout (building.exit block isExit)
  returnSlot := fun slot isSlot => grows.plain (building.returnSlot slot isSlot)
  point := point
  member := member

namespace Advances
variable {g middle t : Graph} {mid : ValueId}

theorem refl (u : Site) (g : Graph) (here : ValueId) : u.Advances g here g here [] := by
  refine ⟨.refl _ _, prefix_rfl, .inl rfl, fun _ _ _ _ => rfl, ?_⟩
  intro b mem _
  by_cases isHere : b = here
  · exact .inl isHere
  · exact .inr (.inr ⟨mem, isHere⟩)

theorem trans (first : u.Advances g here middle mid pending) (second : u.Advances middle mid t there later)
    (skel : u.base.Skeleton t u.func u.entry) :
    u.Advances g here t there (pending ++ later) := by
  refine ⟨first.grows.trans second.grows, first.layout.trans second.layout, ?_, ?_, ?_⟩
  · rcases second.fresh with rfl | new
    · exact first.fresh
    · exact .inr (Nat.le_trans first.grows.size new)
  · intro b into notHere notEntry
    rw [second.others b (Nat.lt_of_lt_of_le into first.grows.size) ?_ notEntry,
      first.others b into notHere notEntry]
    rintro rfl
    rcases first.fresh with eq | new
    · exact notHere eq
    · exact absurd into (Nat.not_lt_of_le new)
  · intro b mem ho
    rcases second.closed b mem ho with isThere | isLater | ⟨old, notMid⟩
    · exact .inl isThere
    · exact .inr (.inl (mem_append_right _ isLater))
    · have was : middle.lastOf b = none := by
        cases ends : middle.lastOf b with
        | none => rfl
        | some last =>
          have above := ((skel.laid.blocks b).1 mem).1
          rw [second.grows.lastOf skel.coded above ends] at ho
          cases ho
      rcases first.closed b old was with isMid | isPending | older
      · exact absurd isMid notMid
      · exact .inr (.inl (mem_append_left _ isPending))
      · exact .inr (.inr older)

theorem single (grows : g.Grows u.entry t) (layout : t.layout u.func = g.layout u.func)
    (others : ∀ b, b ≠ here → b ≠ u.entry → t.code b = g.code b) :
    u.Advances g here t here [] := by
  refine ⟨grows, layout ▸ prefix_rfl, .inl rfl, fun b _ => others b, ?_⟩
  intro b mem _
  rw [layout] at mem
  by_cases isHere : b = here
  · exact .inl isHere
  · exact .inr (.inr ⟨mem, isHere⟩)

end Advances

structure Straight (site : Site) (scopes : ScopeTable ValueId) (state : FunctionState)
    (m after : Module) (here : ValueId) : Prop where
  building : site.Building scopes state after here
  advances : site.Advances m.graph here after.graph here []
  layout : after.graph.layout site.func = m.graph.layout site.func
  opened : m.graph.lastOf here = none → after.graph.lastOf here = none

namespace Straight

theorem refl (made : u.Building scs st m here) : u.Straight scs st m m here :=
  ⟨made, .refl u m.graph here, rfl, id⟩

theorem trans (first : u.Straight scs st m middle here)
    (second : u.Straight scs st middle t here) : u.Straight scs st m t here :=
  ⟨second.building, first.advances.trans second.advances second.building.skeleton,
    second.layout.trans first.layout, fun ho => second.opened (first.opened ho)⟩

theorem plain (str : u.Straight scs st m t here) {v : ValueId}
    (plain : m.graph.Plain v) : t.graph.Plain v :=
  str.advances.grows.plain plain

end Straight

open Builder in
theorem Building.point_eq (made : u.Building scs st m here) {i : ValueId} {op : Opcode}
    {ty : Ty} {ops : List ValueId} {attr : Attr} {pt : InsertPoint} {d : Block}
    (put : Inserted m t i op ty ops attr pt d) : pt = ⟨here, (m.graph.code here).length⟩ :=
  Option.some.inj (put.here.symm.trans made.point)

end Site
end Midend
