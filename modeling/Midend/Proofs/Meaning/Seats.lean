import Mathlib.Data.List.Forall2
import Midend.Proofs.Meaning.Lowered

/-! Where the variables of a function are kept while it is lowered. Every declaration has a stack
slot of its own, and the names stand for the slots as they stand for the variables. -/
namespace Midend
open List Graph

section Matching
variable {α β : Type} {rel rel' : α → β → Prop} {left : Bindings α} {right : Bindings β}

def Bindings.Match (rel : α → β → Prop) (left : Bindings α) (right : Bindings β) : Prop :=
  List.Forall₂ (fun a b => a.1 = b.1 ∧ rel a.2 b.2) left right

theorem Bindings.Match.mono (eq : Bindings.Match rel left right) (weaker : ∀ a b, rel a b → rel' a b) :
    Bindings.Match rel' left right :=
  List.Forall₂.imp (fun _ _ both => ⟨both.1, weaker _ _ both.2⟩) eq

theorem Bindings.Match.lookup (eq : Bindings.Match rel left right) (n : String) :
    Option.Rel rel (left.lookup n) (right.lookup n) := by
  induction eq with
  | nil => exact .none
  | @cons a b _ _ both _ ih =>
    rw [lookup_cons, lookup_cons, both.1]
    split
    · exact .some both.2
    · exact ih

private theorem findSome?_match {lefts : List (Bindings α)} {rights : List (Bindings β)}
    (eq : List.Forall₂ (Bindings.Match rel) lefts rights) (n : String) :
    Option.Rel rel (lefts.findSome? (·.lookup n)) (rights.findSome? (·.lookup n)) := by
  induction eq with
  | nil => exact .none
  | cons first _ ih =>
    have hit := first.lookup n
    rw [findSome?_cons, findSome?_cons]
    generalize List.lookup n _ = a at hit
    generalize List.lookup n _ = b at hit
    cases hit with
    | some related => exact .some related
    | none => exact ih

end Matching

structure Scope.Within (scope after : Scope) : Prop where
  outer : after.table.pop = scope.table.pop
  depth : after.table.inner.length = scope.table.inner.length

namespace Scope.Within
variable {sc mid t : Scope}

theorem refl (sc : Scope) : sc.Within sc := ⟨rfl, rfl⟩

theorem trans (first : sc.Within mid) (second : mid.Within t) : sc.Within t :=
  ⟨second.outer.trans first.outer, second.depth.trans first.depth⟩

/-- A declared name has its own slot. -/
theorem declare (nested : 0 < sc.table.inner.length) (n : String) (ty : Ty) :
    sc.Within (sc.declare n ty) := by
  obtain ⟨first, rest, isInner⟩ := exists_cons_of_length_pos nested
  refine ⟨?_, ?_⟩
  · simp [Scope.declare, ScopeTable.insert, ScopeTable.pop, isInner]
  · simp [Scope.declare, ScopeTable.insert, isInner]

theorem declares (decls : List Decl) (nested : 0 < sc.table.inner.length) :
    sc.Within (decls.foldl (fun sc d => sc.declare d.name d.ty) sc) := by
  induction decls generalizing sc with
  | nil => exact .refl sc
  | cons d rest ih =>
    have first := declare nested d.name d.ty
    exact first.trans (ih (first.depth ▸ nested))

end Scope.Within

mutual
theorem Stmt.within_after : (st : Stmt) → ∀ {sc : Scope}, 0 < sc.table.inner.length → sc.Within (st.after sc)
  | .declare decls _, _, nested => .declares decls nested
  | .compound _ _, sc, _ => ⟨rfl, rfl⟩
  | .ifElse _ thenStmt none _, _, nested => thenStmt.within_after nested
  | .ifElse _ thenStmt (some elseStmt) _, _, nested => by
    have first := thenStmt.within_after nested
    exact first.trans (elseStmt.within_after (first.depth ▸ nested))
  | .whileDo _ body _, _, nested => body.within_after nested
  | .expr _ _, sc, _ | .breakLoop _, sc, _ | .continueLoop _, sc, _ | .ret _ _, sc, _
  | .empty _, sc, _ => .refl sc

theorem Stmt.within_afterAll : (body : List Stmt) → ∀ {sc : Scope}, 0 < sc.table.inner.length →
    sc.Within (Stmt.afterAll sc body)
  | [], sc, _ => .refl sc
  | st :: rest, _, nested => by
    have first := st.within_after nested
    exact first.trans (Stmt.within_afterAll rest (first.depth ▸ nested))
end

namespace Site
variable {g g' : Graph} {v : ValueId}

structure Slot (site : Site) (g : Graph) (v : ValueId) : Prop where
  above : site.base.values.size ≤ v.index
  kind : ∃ name, g.kind? v = some (.inst ⟨.alloca, site.entry, .alloca (some name)⟩)
  points : ∃ ty : Ty, g.ty? v = some (.pointer ty.unqualified)

structure Seat (slots : List ValueId) (g : Graph) (found : Variable) (v : ValueId) : Prop where
  place : ∃ number, found.place = .slot number ∧ slots[number]? = some v
  ty : g.ty? v = some (.pointer found.ty.unqualified)

def Names (site : Site) (names : Bindings Variable) : Prop :=
  ∀ name found, names.lookup name = some found → found.ty.isInteger → found.place = .global name ∧
    ∃ v, site.outermost.lookup name = some v ∧ site.base.kind? v = some (.global name) ∧
      site.base.ty? v = some (.pointer found.ty.unqualified)

structure Seated (site : Site) (state : FunctionState) (slots : List ValueId) (scope : Scope) (m : Module) : Prop where
  count : slots.length = scope.declared
  inner : List.Forall₂ (Bindings.Match (Seat slots m.graph)) scope.table.inner m.symbols.inner
  names : site.Names scope.table.outermost
  nodup : slots.Nodup
  kinds : ∀ v ∈ slots, site.Slot m.graph v
  apart : ∀ v ∈ slots, v ∉ state.returnSlot

structure Free (site : Site) (state : FunctionState) (slots : List ValueId) (g : Graph) (slot : ValueId) (ty : Ty) :
    Prop extends site.Slot g slot where
  ty : g.ty? slot = some (.pointer ty.unqualified)
  fresh : slot ∉ slots
  apart : slot ∉ state.returnSlot

variable {u : Site} {st : FunctionState} {slots : List ValueId} {sc : Scope} {m t : Module}

theorem Seat.mono {more : List ValueId} {entry : ValueId} {hit : Variable} (seat : Seat slots g hit v)
    (longer : slots <+: more) (grows : g.Grows entry g') : Seat more g' hit v := by
  obtain ⟨number, isPlace, mem⟩ := seat.place
  refine ⟨⟨number, isPlace, ?_⟩, grows.ty? _ _ seat.ty⟩
  obtain ⟨rest, rfl⟩ := longer
  rw [List.getElem?_append_left (List.getElem?_eq_some_iff.1 mem).1]
  exact mem

theorem Slot.mono (slot : u.Slot g v) (grows : g.Grows u.entry g') : u.Slot g' v := by
  obtain ⟨n, hit⟩ := slot.kind
  obtain ⟨ty, isTy⟩ := slot.points
  exact ⟨slot.above, ⟨n, grows.inst hit⟩, ty, grows.ty? v _ isTy⟩

theorem Free.mono {slot : ValueId} {ty : Ty} (free : u.Free st slots g slot ty) (grows : g.Grows u.entry g') :
    u.Free st slots g' slot ty :=
  ⟨free.toSlot.mono grows, grows.ty? _ _ free.ty, free.fresh, free.apart⟩

namespace Seated
variable {n : String} {slot : ValueId} {ty : Ty}

section
variable (seated : u.Seated st slots sc m)
include seated

theorem grown (grows : m.graph.Grows u.entry t.graph)
    (eq : t.symbols = m.symbols) : u.Seated st slots sc t where
  count := seated.count
  inner := by
    rw [eq]
    refine seated.inner.imp fun _ _ bound => bound.mono ?_
    exact fun _ _ seat => seat.mono prefix_rfl grows
  names := seated.names
  nodup := seated.nodup
  kinds v mem := (seated.kinds v mem).mono grows
  apart := seated.apart

theorem declare (nested : 0 < m.symbols.inner.length) (free : u.Free st slots m.graph slot ty) :
    u.Seated st (slots ++ [slot]) (sc.declare n ty) { m with symbols := m.symbols.insert n slot } := by
  have longer : slots <+: slots ++ [slot] := prefix_append _ _
  have seat : Seat (slots ++ [slot]) m.graph ⟨.slot sc.declared, ty⟩ slot := by
    refine ⟨⟨_, rfl, ?_⟩, free.ty⟩
    rw [← seated.count, getElem?_append_right (Nat.le_refl _), Nat.sub_self]
    rfl
  have kept : List.Forall₂ (Bindings.Match (Seat (slots ++ [slot]) m.graph)) sc.table.inner m.symbols.inner := by
    refine seated.inner.imp fun _ _ bound => bound.mono ?_
    exact fun _ _ seat => seat.mono longer (.refl u.entry m.graph)
  refine ⟨?_, ?_, ?_, ?_, ?_, ?_⟩
  · rw [length_append, seated.count]
    rfl
  · obtain ⟨first, rest, isInner⟩ := exists_cons_of_length_pos nested
    show List.Forall₂ _ (sc.table.insert n _).inner (m.symbols.insert n slot).inner
    rw [isInner] at kept
    obtain ⟨bound, outer, isBound, others, isTable⟩ := forall₂_cons_right_iff.1 kept
    rw [ScopeTable.insert, ScopeTable.insert, isInner, isTable]
    exact .cons (.cons ⟨rfl, seat⟩ isBound) others
  · show u.Names (sc.table.insert n _).outermost
    have outermost : (sc.table.insert n ⟨.slot sc.declared, ty⟩).outermost = sc.table.outermost := by
      have long := seated.inner.length_eq ▸ nested
      obtain ⟨_, _, isTable⟩ := exists_cons_of_length_pos long
      rw [ScopeTable.insert, isTable]
    rw [outermost]
    exact seated.names
  · refine nodup_append.2 ⟨seated.nodup, nodup_singleton _, ?_⟩
    intro v mem other isSlot eq
    rw [eq, mem_singleton.1 isSlot] at mem
    exact free.fresh mem
  · intro v mem
    rcases mem_append.1 mem with old | new
    · exact seated.kinds v old
    · rw [mem_singleton.1 new]
      exact free.toSlot
  · intro v mem
    rcases mem_append.1 mem with old | new
    · exact seated.apart v old
    · rw [mem_singleton.1 new]
      exact free.apart

theorem free {scopes : ScopeTable ValueId} {here : ValueId}
    (made : u.Building scopes st m here) (done : Builder.alloca ty (some n) m = .ok (slot, t)) :
    u.Free st slots t.graph slot ty := by
  obtain ⟨state', d, current, allocated⟩ := Builder.alloca_ok made.skeleton.consistent done
  obtain rfl : st = state' := Option.some.inj (made.current.symm.trans current)
  rw [made.entry] at allocated
  have isNew : slot = ⟨m.graph.values.size⟩ := allocated.inserted.fresh
  have isTy : t.graph.ty? slot = some (.pointer ty.unqualified) := (allocated.inserted.ty? slot).trans (if_pos rfl)
  refine ⟨⟨?_, ⟨n, allocated.inserted.kind?_self⟩, ty, isTy⟩, isTy, ?_, ?_⟩
  · rw [isNew]
    exact made.skeleton.framed.size
  · intro mem
    obtain ⟨_, hit⟩ := (seated.kinds slot mem).kind
    rw [isNew] at hit
    exact Nat.lt_irrefl _ (lt_of_kind? hit)
  · intro isResult
    rw [isNew] at isResult
    exact Nat.lt_irrefl _ (made.returnSlot _ isResult).inside

theorem push : u.Seated st slots sc.push { m with symbols := m.symbols.push } :=
  ⟨seated.count, .cons .nil seated.inner, seated.names, seated.nodup, seated.kinds, seated.apart⟩

end

theorem leave {inner : Scope} (seated : u.Seated st slots inner m) (within : sc.push.Within inner) :
    u.Seated st slots (sc.leave inner) { m with symbols := m.symbols.pop } := by
  have table : inner.table.pop = sc.table := within.outer
  refine ⟨seated.count, ?_, ?_, seated.nodup, seated.kinds, seated.apart⟩
  · show List.Forall₂ _ sc.table.inner m.symbols.inner.tail
    rw [← table]
    show List.Forall₂ _ inner.table.inner.tail _
    rw [← drop_one, ← drop_one]
    exact forall₂_drop 1 seated.inner
  · show u.Names sc.table.outermost
    rw [← table]
    exact seated.names

end Seated
end Site

structure Plan.Hosts (plan : Plan) (site : Site) (state : FunctionState) (slots : List ValueId) (g : Graph) : Prop
    extends plan.Includes site g where
  seats : slots <+: plan.slots
  global : ∀ name v, plan.global name = some v ↔ site.outermost.lookup name = some v ∧
    site.base.kind? v = some (.global name) ∧ ∃ ty, site.base.ty? v = some (.pointer ty) ∧ ty.isInteger
  exit : state.exit = some plan.exit
  result : state.returnSlot = plan.result

namespace Plan.Hosts
variable {c : Plan} {u : Site} {st : FunctionState} {slots more : List ValueId} {g t : Graph}

theorem before (hosts : c.Hosts u st more t) (longer : slots <+: more)
    (grows : g.Grows u.entry t) : c.Hosts u st slots g :=
  { hosts with toIncludes := hosts.toIncludes.before grows, seats := longer.trans hosts.seats }

theorem slotted (hosts : c.Hosts u st slots g) {v : ValueId} {ty : Ty} (isSlot : u.Slot g v)
    (isTy : g.ty? v = some (.pointer ty.unqualified)) : ∃ n, c.Slotted v ty (some n) := by
  obtain ⟨n, hit⟩ := isSlot.kind
  have kept := hosts.grows.inst hit
  refine ⟨n, ?_, ?_, hosts.ty isTy⟩
  · rw [hosts.entry]
    exact (hosts.skeleton.coded.homes v _ isSlot.above kept).2
  · rw [hosts.entry]
    exact kept

end Plan.Hosts

theorem Site.Seated.seats {c : Plan} {u : Site} {st : FunctionState} {slots : List ValueId} {sc : Scope}
    {m : Module} (seated : u.Seated st slots sc m) (hosts : c.Hosts u st slots m.graph)
    (outermost : m.symbols.outermost = u.outermost) : c.Seats sc m.symbols := by
  intro n hit isFound integer
  have inner := findSome?_match seated.inner n
  rw [Scope.lookup, ScopeTable.lookup] at isFound
  rw [ScopeTable.lookup, outermost]
  generalize sc.table.inner.findSome? _ = a at inner isFound
  generalize m.symbols.inner.findSome? _ = b at inner
  cases inner with
  | @some _ v seat =>
    cases isFound
    obtain ⟨number, isPlace, mem⟩ := seat.place
    obtain ⟨slotName, slotted⟩ := hosts.slotted (seated.kinds v (mem_of_getElem? mem)) seat.ty
    refine ⟨v, rfl, ?_, .inr ⟨_, slotName, slotted⟩, slotted.ty⟩
    rw [isPlace]
    obtain ⟨rest, eq⟩ := hosts.seats
    show c.slots[number]? = some v
    rw [← eq, List.getElem?_append_left (List.getElem?_eq_some_iff.1 mem).1]
    exact mem
  | none =>
    obtain ⟨isPlace, v, bound, isGlobal, isTy⟩ := seated.names n hit isFound integer
    refine ⟨v, bound, ?_, ?_⟩
    · rw [isPlace]
      exact (hosts.global n v).2 ⟨bound, isGlobal, _, isTy, hit.ty.alike_unqualified.isInteger ▸ integer⟩
    · refine ⟨.inl ⟨n, ?_⟩, ?_⟩
      · rw [hosts.skeleton.framed.kind? v (lt_of_kind? isGlobal)]
        exact isGlobal
      · rw [hosts.skeleton.framed.ty? v (lt_of_kind? isGlobal)]
        exact isTy

end Midend
