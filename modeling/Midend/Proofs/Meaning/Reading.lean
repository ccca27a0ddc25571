import Midend.Proofs.Meaning.Typing

/-! When the operands of an operation are read. A variable that is the left operand of arithmetic or of a comparison
is read before the right operand is computed. The variables among the arguments of a call are read only after all
arguments were computed. -/
namespace Midend
open Graph List

/-- In the blocks of a function, all that was made in some time comes after a value on every way that control takes.
The first block is left out: it has only stack slots and what was made before the body. -/
def Graph.Heads (g : Graph) (func entry v : ValueId) (low high : Nat) : Prop :=
  ∀ block ∈ g.layout func, block ≠ entry → ∀ front inst rest passed, g.code block = front ++ inst :: rest →
    low ≤ inst.index → inst.index < high → g.Path entry passed block → v ∈ passed.flatMap g.code ++ front

namespace Plan
variable {c : Plan} {p p1 p2 q : Spot} {l r u v w left right : ValueId} {ty : Ty}

section Heads
variable {f : FuncDef} {outer : Outer} {m : Module} {fn b i : ValueId} {d : Inst}

/-- An instruction of a function comes after its operands, and so does all that was made between them. -/
private theorem Realizes.heads (realizes : c.Realizes f outer m fn) (orderly : m.graph.Orderly m.functions m.globals)
    (mem : b ∈ m.graph.layout fn) (isIn : i ∈ m.graph.code b) (used : some v ∈ m.graph.operandsOf i)
    (res : m.graph.kind? v = some (.inst d)) : m.graph.Heads fn c.entry v (v.index + 1) i.index := by
  obtain ⟨site, avail, isFunc, isEntry, traced, -⟩ := realizes.traced
  rw [← isFunc] at mem ⊢
  rw [← isEntry]
  have leads := (traced.fed b mem i isIn).leads v d used res
  have whole := orderly.whole site.func (isFunc ▸ List.mem_of_find?_eq_some realizes.found)
  obtain ⟨entry, tracked⟩ := whole.tracked
  have into : site.entry ∈ m.graph.layout site.func := by
    rw [isEntry, isFunc]
    exact List.mem_of_head? realizes.head
  intro other within notEntry front inst' rest passed code low high path
  rw [mem_append]
  rcases leads other within notEntry inst' (by simp [code]) low high with early | known | first
  · have once := tracked.once other within
    rw [code] at early once
    exact .inr (mem_of_pair_sublist once early)
  · exact .inl (traced.covered.computed whole.targets into path known)
  · exact .inl (mem_flatMap.2 ⟨site.entry, path.entry_mem notEntry, first⟩)

end Heads

def Operates (c : Plan) (op : BinaryOp) (lhs rhs : Ty) (p : Spot) (l r v : ValueId) (q : Spot) : Prop :=
  match op with
  | .arith op => c.Binary p (op.opcode lhs rhs) l r v q
  | .compare op => c.Compares p (op.predicate (lhs.common rhs)) l r v q
  | _ => False

structure Gathers (plan : Plan) (p q : Spot) : Prop where
  block : q.block = p.block
  size : p.size ≤ q.size
  index : p.index ≤ q.index
  reads : ∀ i, p.index ≤ i → i < q.index → ∃ w op, (plan.graph.code p.block)[i]? = some w ∧
    plan.graph.opcode? w = some op ∧ (op = .load ∨ op.isCast)

theorem Gathers.refl (p : Spot) : c.Gathers p p :=
  ⟨rfl, Nat.le_refl _, Nat.le_refl _, fun _ low high => absurd high (Nat.not_lt_of_le low)⟩

theorem Gathers.trans (first : c.Gathers p p1) (second : c.Gathers p1 q) : c.Gathers p q where
  block := second.block.trans first.block
  size := Nat.le_trans first.size second.size
  index := Nat.le_trans first.index second.index
  reads i low high := by
    rcases Nat.lt_or_ge i p1.index with early | late
    · exact first.reads i low early
    · exact first.block ▸ second.reads i late high

private theorem Puts.gathers {op : Opcode} {ops : List ValueId} {attr : Attr} (put : c.Puts p op ty ops attr w q)
    (reads : op = .load ∨ op.isCast) : c.Gathers p q := by
  rw [put.next]
  refine ⟨rfl, Nat.le_succ _, Nat.le_succ _, fun i low high => ?_⟩
  obtain rfl : i = p.index := Nat.le_antisymm (Nat.le_of_lt_succ high) low
  exact ⟨w, op, put.listed, opcode?_eq put.kind, reads⟩

theorem Loads.of_address (loads : c.Loads p u v q) (address : ∃ k, c.graph.kind? u = some k ∧ k.isAddress) :
    ∃ ty, c.Puts p .load ty [u] .none v q := by
  obtain ⟨k, hit, isAddress⟩ := address
  cases loads with
  | plain found' notAddress =>
    cases hit.symm.trans found'
    rw [notAddress] at isAddress
    cases isAddress
  | address _ _ _ _ put => exact ⟨_, put⟩

private theorem Loads.gathers (loads : c.Loads p u v q) : c.Gathers p q := by
  cases loads with
  | plain => exact .refl p
  | address _ _ _ _ put => exact put.gathers (.inl rfl)

private theorem Converts.gathers (converts : c.Converts p u ty v q) : c.Gathers p q := by
  cases converts with
  | same => exact .refl p
  | cast _ hit put => exact put.gathers (.inr (Builder.castOp_isCast hit))

def LoadsFrom (plan : Plan) (p q : Spot) (u : ValueId) : Prop :=
  ∃ i w, p.index ≤ i ∧ i < q.index ∧ (plan.graph.code p.block)[i]? = some w ∧ plan.graph.opcode? w = some .load ∧
    plan.graph.operandsOf w = [some u] ∧ p.size ≤ w.index

private theorem Passes.gathers : (args : List (ValueId × Ty)) → ∀ {p values q}, c.Passes args p values q → c.Gathers p q ∧
    ∀ arg ∈ args, (∃ k, c.graph.kind? arg.1 = some k ∧ k.isAddress) → c.LoadsFrom p q arg.1
  | [], _, _, _, ⟨_, rfl⟩ => ⟨.refl _, nofun⟩
  | (source, ty) :: tl, p, _, q, ⟨_, _, _, p1, p2, loads, converts, others, _⟩ => by
    obtain ⟨gathers, each⟩ := Passes.gathers tl others
    have first := loads.gathers.trans converts.gathers
    refine ⟨first.trans gathers, ?_⟩
    intro arg member address
    rcases mem_cons.1 member with rfl | member
    · obtain ⟨_, put⟩ := loads.of_address address
      refine ⟨p.index, _, Nat.le_refl _, ?_, put.listed, opcode?_eq put.kind, put.operands, Nat.le_of_eq (by rw [put.fresh])⟩
      have later := (converts.gathers.trans gathers).index
      rw [put.next] at later
      exact later
    · obtain ⟨i, w, low, high, mem, isLoad, reads, new⟩ := each arg member address
      exact ⟨i, w, Nat.le_trans first.index low, high, first.block ▸ mem, isLoad, reads, Nat.le_trans first.size new⟩

/-- The left operand of an operation is used by something that was made after both operands. -/
theorem Operates.uses {op : BinaryOp} {lhs rhs : Ty} (operates : c.Operates op lhs rhs p l r v q)
    (val : ∃ k, c.graph.kind? l = some k ∧ k.isAddress = false) :
    ∃ user ∈ c.graph.code q.block, some l ∈ c.graph.operandsOf user ∧ p.size ≤ user.index := by
  obtain ⟨left, right, ty, p1, ⟨_, _, p2, p3, loads, loads', _, _, p4, _, _, _, _, _, first, second⟩, op, ty', attr, put⟩ :
      ∃ left right ty p1, c.Unifies p l r left right ty p1 ∧ ∃ op ty' attr, c.Puts p1 op ty' [left, right] attr v q := by
    cases op with
    | arith op | compare op =>
      obtain ⟨left, right, ty, p1, unifies, put⟩ := operates
      exact ⟨left, right, ty, p1, unifies, _, _, _, put⟩
    | _ => cases operates
  obtain ⟨rfl, rfl⟩ := loads.of_value val
  have size := (loads'.gathers.trans (first.gathers.trans second.gathers)).size
  have b : q.block = p3.block := by
    rw [put.next]
    exact second.gathers.block.trans first.gathers.block
  cases first with
  | same =>
    refine ⟨v, ?_, by rw [put.operands]; simp, ?_⟩
    · rw [put.next]
      exact mem_of_getElem? put.listed
    · rw [put.fresh]
      exact size
  | cast _ _ cast =>
    refine ⟨left, ?_, by rw [cast.operands]; simp, ?_⟩
    · rw [b]
      exact mem_of_getElem? cast.listed
    · rw [cast.fresh]
      exact loads'.gathers.size

/-- A variable on the left of arithmetic or of a comparison is loaded before anything that the code of the right
operand does. Where a call is made, the variables among its arguments are loaded after the code of all arguments, and
nothing but loads and casts stands between this code and the call. -/
structure ReadsInOrder (c : Plan) (fn : ValueId) : Prop where
  operands : ∀ scope op name note right other p v q, c.Computes scope (.binary op (.ident name note) right other) p v q →
    op.isAssignment = false → op.isLogical = false → q.block ∈ c.graph.layout fn →
    ∃ u l p1 r p2, c.Stands scope name u ∧ c.Loads p u l p1 ∧ c.Value (c.Computes scope right) p1 r p2 ∧
      c.Operates op note.ty right.ty p2 l r v q ∧ ((∃ kind, c.graph.kind? u = some kind ∧ kind.isAddress) →
        c.graph.opcode? l = some .load ∧ c.graph.operandsOf l = [some u] ∧ l.index + 1 = p1.size ∧
          c.graph.Heads fn c.entry l p1.size p2.size)
  arguments : ∀ scope function arguments note p v q, c.Computes scope (.call function arguments note) p v q →
    ∃ us p1 p2, c.ComputesAll scope arguments p us p1 ∧ c.Gathers p1 p2 ∧
      (c.graph.code p1.block)[p2.index]? = some v ∧ c.graph.opcode? v = some .call ∧
      ∀ u ∈ us, (∃ kind, c.graph.kind? u = some kind ∧ kind.isAddress) → c.LoadsFrom p1 p2 u

private theorem Calls.gathers {callee : ValueId} {us : List ValueId} (calls : c.Calls p callee us v q) :
    ∃ p1, c.Gathers p p1 ∧ (c.graph.code p.block)[p1.index]? = some v ∧ c.graph.opcode? v = some .call ∧
      ∀ u ∈ us, (∃ k, c.graph.kind? u = some k ∧ k.isAddress) → c.LoadsFrom p p1 u := by
  obtain ⟨ty, values, p1, _, length, passes, put⟩ := calls
  obtain ⟨gathers, each⟩ := Passes.gathers _ passes
  refine ⟨p1, gathers, gathers.block ▸ put.listed, opcode?_eq put.kind, ?_⟩
  intro u member address
  obtain ⟨i, lt, rfl⟩ := getElem_of_mem member
  have paired : (us[i], ty.paramTypes[i]) ∈ us.zip ty.paramTypes := by
    rw [← getElem_zip (h := by simp; omega)]
    exact getElem_mem _
  exact each _ paired address

private theorem Realizes.readsInOrder {f : FuncDef} {outer : Outer} {m : Module} {fn : ValueId}
    (realizes : c.Realizes f outer m fn) (orderly : m.graph.Orderly m.functions m.globals) : c.ReadsInOrder fn where
  operands sc op n note right other p v q cs plain notLogical into := by
    obtain ⟨l, r, p1, p2, ⟨u, _, ⟨rfl, stands⟩, loads⟩, second, operates⟩ : ∃ l r p1 p2,
        c.Value (c.Computes sc (.ident n note)) p l p1 ∧ c.Value (c.Computes sc right) p1 r p2 ∧
          c.Operates op note.ty right.ty p2 l r v q := by
      cases op with
      | arith op | compare op => exact cs
      | logic op => cases notLogical
      | assign base => cases plain
    refine ⟨u, l, p1, r, p2, stands, loads, second, operates, ?_⟩
    intro address
    obtain ⟨_, put⟩ := loads.of_address address
    obtain ⟨user, isIn, used, later⟩ := operates.uses ⟨_, put.kind, rfl⟩
    have size : l.index + 1 = p1.size := by
      rw [put.next, put.fresh]
      rfl
    refine ⟨opcode?_eq put.kind, put.operands, size, ?_⟩
    have k := put.kind
    rw [realizes.graph] at into isIn used k ⊢
    intro b mem notEntry first i tl passed cs low high path
    exact realizes.heads orderly into isIn used k b mem notEntry first i tl passed cs (size ▸ low)
      (Nat.lt_of_lt_of_le high later) path
  arguments sc function arguments note p v q cs := by
    obtain ⟨_, us, p1, _, all, calls⟩ := cs
    obtain ⟨p2, gathers⟩ := calls.gathers
    exact ⟨us, p1, p2, all, gathers⟩

end Plan

/-- In every function that is lowered without a mistake, the operands of arithmetic and of comparisons are read from left
to right, and the arguments of calls at the end. -/
theorem operands_read_in_order {unit : String} {front : List Item} {results : List (Except LowerError Unit)} {f : FuncDef}
    {s middle : Lowering} {outer : Outer} (earlier : (Lowering.start unit).outcomes front = .ok (results, s))
    (known : Outer.items {} front results = outer) (lowered : (Lower.function f).run s = .ok (.ok (), middle)) :
    ∃ func, ∃ plan : Plan, plan.Realizes f outer middle.module func ∧ plan.ReadsInOrder func := by
  subst known
  have knows := (Lowering.knows_start unit).outcomes earlier
  obtain ⟨func, plan, realizes⟩ := knows.lowered lowered
  exact ⟨func, plan, realizes, realizes.readsInOrder (knows.function (Lower.function_run lowered)).orderly⟩

/-- A function that reads a variable as an operand and as an argument, each time before an assignment to it. -/
def rereads : FuncDef where
  name := "rereads"
  returnType := .int32
  params := [{ name := "x", ty := .int32 }, { name := "y", ty := .int32 }]
  body := .compound [.ret (some (.ofBinary (.arith .add) (.ofName "x" .int32) (.ofCall "rereads" [.ofName "x" .int32,
    .ofBinary (.assign none) (.ofName "x" .int32) (.ofInt 5)] .int32))) .unknown] .unknown

theorem rereads_in_order : ∃ (middle : Lowering) (func : ValueId) (plan : Plan),
    (Lower.function rereads).run (.start "unit") = .ok (.ok (), middle) ∧ plan.Realizes rereads {} middle.module func ∧
      plan.ReadsInOrder func := by
  obtain ⟨⟨result, middle⟩, lowered, isOk⟩ := @ok_of_toOption_map _ _ _ ((Lower.function rereads).run (.start "unit"))
    (fun pair => pair.1.toOption.isSome) true (by decide +kernel)
  cases result with
  | error e => cases isOk
  | ok value =>
    have earlier : (Lowering.start "unit").outcomes [] = .ok ([], .start "unit") := rfl
    obtain ⟨func, plan, reads⟩ := operands_read_in_order earlier rfl lowered
    exact ⟨middle, func, plan, lowered, reads⟩

/-- What the call gets for its first argument is loaded after the assignment in its second one. -/
theorem argument_read_after_assignment : ∃ (middle : Lowering) (func : ValueId) (plan : Plan) (p q r r' : Spot)
    (slot number load passed call callee : ValueId) (ty : Ty) (others : List ValueId),
    (Lower.function rereads).run (.start "unit") = .ok (.ok (), middle) ∧ plan.Realizes rereads {} middle.module func ∧
      plan.Stands (rereads.scope []) "x" slot ∧ plan.Stores p number slot q ∧ plan.Loads q slot load r ∧
      plan.graph.opcode? load = some .load ∧ plan.Converts r load ty passed r' ∧ plan.graph.opcode? call = some .call ∧
      plan.graph.operandsOf call = (callee :: passed :: others).map some := by
  obtain ⟨⟨result, middle⟩, lowered, isOk⟩ := @ok_of_toOption_map _ _ _ ((Lower.function rereads).run (.start "unit"))
    (fun pair => pair.1.toOption.isSome) true (by decide +kernel)
  cases result with
  | error e => cases isOk
  | ok value =>
    obtain ⟨func, plan, realizes⟩ := (Lowering.knows_start "unit").lowered lowered
    obtain ⟨_, _, _, _, _, _, _, _, _, ⟨_, ⟨leaves, _⟩, _⟩, _⟩ := realizes.body
    obtain ⟨_, _, _, _, ⟨_, _, _, _, _, ⟨call, _, code, _⟩, _⟩, _⟩ := leaves.value
    obtain ⟨callee, _, _, _, ⟨u, _, _, ⟨rfl, stands⟩, ⟨_, _, _, update, ⟨rfl, rfl⟩, rfl⟩, rfl⟩, ty, values, _, _, length,
      passes, put⟩ := code
    obtain ⟨slot, kind, _, ⟨rfl, stands'⟩, found, isAddress, _, _, _, _, _, _, _, _, _, _, _, _, stores⟩ := update
    obtain rfl : u = slot := Option.some.inj ((stands _ rfl rfl).1.symm.trans (stands' _ rfl rfl).1)
    cases isTys : ty.paramTypes with
    | nil =>
      rw [isTys] at length
      cases length
    | cons first rest =>
      rw [isTys] at passes
      obtain ⟨loaded, passed, others, _, _, loads, converts, _, rfl⟩ := passes
      obtain ⟨_, load⟩ := loads.of_address ⟨kind, found, isAddress⟩
      exact ⟨middle, func, plan, _, _, _, _, u, _, loaded, passed, call, callee, first, others, lowered, realizes, stands,
        stores, loads, opcode?_eq load.kind, converts, opcode?_eq put.kind, put.operands⟩

end Midend
