import Mathlib.Tactic.Tauto
import Midend.Proofs.Module.Steps

/-! Code that is being built only grows: blocks get further instructions at their ends, the
entry block gets stack slots before its terminator, and everything else stays. -/
namespace Midend.Graph
open List
variable {t g : Graph}

structure Grows (entry : ValueId) (g after : Graph) : Prop where
  size : g.values.size ≤ after.values.size
  ty? : ∀ v ty, g.ty? v = some ty → after.ty? v = some ty
  kind? : ∀ v kind, g.kind? v = some kind → kind.isBlock = false → after.kind? v = some kind
  block : ∀ v data, g.kind? v = some (.block data) → ∃ insts,
    after.kind? v = some (.block { data with insts }) ∧ (v ≠ entry → data.insts <+: insts)
  operandsOf : ∀ v data, g.kind? v = some (.inst data) → after.operandsOf v = g.operandsOf v
  slots : ∀ front last, g.code entry = front ++ [last] → g.isTerminator last →
    ∃ more, after.code entry = front ++ more ++ [last] ∧ ∀ v ∈ more, after.opcode? v = some .alloca

namespace Grows
variable {entry : ValueId} {g mid t : Graph}
variable {v : ValueId}

theorem refl (entry : ValueId) (g : Graph) : g.Grows entry g := by
  refine ⟨Nat.le_refl _, fun _ _ hit => hit, fun _ _ hit _ => hit, ?_, fun _ _ _ => rfl, ?_⟩
  · intro v d hit
    exact ⟨d.insts, hit, fun _ => prefix_rfl⟩
  · intro front last cs _
    exact ⟨[], by simpa using cs, by simp⟩

theorem inst (grows : g.Grows entry t) {v : ValueId} {d : Inst}
    (hit : g.kind? v = some (.inst d)) : t.kind? v = some (.inst d) :=
  grows.kind? v _ hit rfl

theorem opcode? (grows : g.Grows entry t) {v : ValueId} {op : Opcode}
    (hit : g.opcode? v = some op) : t.opcode? v = some op := by
  obtain ⟨d, read, rfl⟩ := inst_of_opcode? hit
  exact opcode?_eq (grows.inst read)

theorem isTerminator (grows : g.Grows entry t) (hit : g.isTerminator v) : t.isTerminator v := by
  obtain ⟨op, isOp, ends⟩ := opcode?_of_isTerminator hit
  rw [isTerminator_of_opcode? (grows.opcode? isOp)]
  exact ends

theorem isBlock (grows : g.Grows entry t) (into : v.index < g.values.size) : t.isBlock v = g.isBlock v := by
  obtain ⟨k, hit⟩ := Option.isSome_iff_exists.1 (kind?_isSome.2 into)
  cases k with
  | block d =>
    obtain ⟨insts, now, _⟩ := grows.block v d hit
    rw [Graph.isBlock, now, Graph.isBlock, hit]
    rfl
  | _ => rw [Graph.isBlock, grows.kind? v _ hit rfl, Graph.isBlock, hit]

theorem code (grows : g.Grows entry t) (ne : v ≠ entry) : g.code v <+: t.code v := by
  cases hit : g.kind? v with
  | none =>
    rw [Graph.code, hit]
    exact nil_prefix
  | some k =>
    cases k with
    | block d =>
      obtain ⟨insts, now, isPrefix⟩ := grows.block v d hit
      rw [code_of_kind? hit, code_of_kind? now]
      exact isPrefix ne
    | _ =>
      rw [Graph.code, hit]
      exact nil_prefix

theorem trans (first : g.Grows entry mid) (second : mid.Grows entry t) : g.Grows entry t := by
  refine ⟨Nat.le_trans first.size second.size, ?_, ?_, ?_, ?_, ?_⟩
  · intro v ty hit
    exact second.ty? v ty (first.ty? v ty hit)
  · intro v k hit nb
    exact second.kind? v k (first.kind? v k hit nb) nb
  · intro v d hit
    obtain ⟨insts, now, left⟩ := first.block v d hit
    obtain ⟨insts', later, right⟩ := second.block v _ now
    exact ⟨insts', later, fun ne => (left ne).trans (right ne)⟩
  · intro v d hit
    exact (second.operandsOf v d (first.inst hit)).trans (first.operandsOf v d hit)
  · intro front last cs ends
    obtain ⟨more, code', ls⟩ := first.slots front last cs ends
    obtain ⟨more', code'', slots'⟩ := second.slots (front ++ more) last code' (first.isTerminator ends)
    refine ⟨more ++ more', by rw [code'', append_assoc front], ?_⟩
    intro v mem
    rcases mem_append.1 mem with early | late
    · exact second.opcode? (ls v early)
    · exact slots' v late

end Grows

theorem Added.grows {v : ValueId} {k : Kind} {ty : Ty} (added : g.Added t v k ty) (entry : ValueId)
    (nb : k.isBlock = false) : g.Grows entry t := by
  have empty : k.insts = [] := by
    cases k with
    | block d => cases nb
    | _ => rfl
  refine ⟨by rw [added.size]; exact Nat.le_succ _, fun w ty' hit => added.ty?_of_some hit,
    fun w kind' hit _ => added.kind?_of_some hit, ?_, fun w d _ => added.operandsOf w, ?_⟩
  · intro w d hit
    exact ⟨d.insts, added.kind?_of_some hit, fun _ => prefix_rfl⟩
  · intro front last cs _
    exact ⟨[], by rw [added.code empty, cs]; simp, by simp⟩

theorem Rewired.grows {refs : ValueId → List (Option ValueId) → List (Option ValueId)}
    (wired : g.Rewired t refs) (entry : ValueId)
    (insts : ∀ v d, g.kind? v = some (.inst d) → refs v (g.operandsOf v) = g.operandsOf v) :
    g.Grows entry t := by
  refine ⟨Nat.le_of_eq wired.size.symm, ?_, ?_, ?_, ?_, ?_⟩
  · intro v ty hit
    rw [wired.ty? v, hit]
  · intro v k hit _
    rw [wired.kind? v, hit]
  · intro v d hit
    exact ⟨d.insts, by rw [wired.kind? v, hit], fun _ => prefix_rfl⟩
  · intro v d hit
    rw [wired.operandsOf v, insts v d hit]
  · intro front last cs _
    exact ⟨[], by rw [Graph.code, wired.kind? entry]; simpa [Graph.code] using cs, by simp⟩

end Midend.Graph

namespace Midend.Builder
open List Graph
variable {t m : Module} {d : Block} {entry slot : ValueId} {n : Option String} {ty : Ty}

namespace BlockAdded
variable {g t : Graph} {b fn : ValueId} {n : Option String}
variable {v : ValueId}

section
variable (added : BlockAdded g t b fn n)
include added

theorem kind?_of_some {k : Kind} (hit : g.kind? v = some k) : t.kind? v = some k := by
  rw [added.kind? v, if_neg, hit]
  rw [added.fresh]
  exact ne_fresh (lt_of_kind? hit)

theorem code (v : ValueId) : t.code v = g.code v := by
  rw [Graph.code, added.kind? v, Graph.code]
  split
  next eq =>
    rw [eq, added.fresh, kind?_fresh]
    rfl
  next => rfl

theorem lastOf (v : ValueId) : t.lastOf v = g.lastOf v := by
  apply lastOf_congr (added.code v)
  intro i _
  rw [Graph.opcode?, added.kind? i, Graph.opcode?]
  split
  next eq =>
    rw [eq, added.fresh, kind?_fresh]
    rfl
  next => rfl

theorem code_self : t.code b = [] := by
  rw [added.code, Graph.code, added.fresh, kind?_fresh]
  rfl

theorem ne_of_lt (into : v.index < g.values.size) : v ≠ b := by
  rw [added.fresh]
  exact ne_fresh into

theorem mem_layout : b ∈ t.layout fn := by
  rw [Graph.layout, added.operandsOf, if_pos rfl, filterMap_append]
  exact mem_append_right _ mem_cons_self

theorem grows (entry : ValueId) (function : ∃ d, g.kind? fn = some (.function d)) : g.Grows entry t := by
  refine ⟨by rw [added.size]; exact Nat.le_succ _, ?_, fun v k hit _ => added.kind?_of_some hit, ?_, ?_, ?_⟩
  · intro v ty hit
    rw [added.ty? v, if_neg, hit]
    rw [added.fresh]
    exact ne_fresh (lt_of_ty? hit)
  · intro v d hit
    exact ⟨d.insts, added.kind?_of_some hit, fun _ => prefix_rfl⟩
  · intro v d hit
    rw [added.operandsOf v, if_neg]
    rintro rfl
    obtain ⟨f, isFn⟩ := function
    cases isFn.symm.trans hit
  · intro front last cs _
    exact ⟨[], by rw [added.code, cs]; simp, by simp⟩

end

end BlockAdded

theorem insertIdx_eq_append {α : Type} (item : α) (items : List α) (position : Nat)
    (lt : position ≤ items.length) :
    items.insertIdx position item = items.take position ++ item :: items.drop position := by
  induction position generalizing items with
  | zero => simp
  | succ position ih =>
    cases items with
    | nil => cases lt
    | cons first tl => simpa using ih tl (by simpa using lt)

namespace Inserted
variable {m t : Module} {i : ValueId} {op : Opcode} {ty : Ty} {operands : List ValueId}
  {attr : Attr} {pt : InsertPoint} {d : Block}
variable {v : ValueId}

section
variable (inserted : Inserted m t i op ty operands attr pt d)
include inserted

theorem ne_of_lt (into : v.index < m.graph.values.size) : v ≠ i := by
  rw [inserted.fresh]
  exact ne_fresh into

private theorem block_ne : pt.block ≠ i :=
  inserted.ne_of_lt (lt_of_kind? inserted.block)

theorem kind?_self : t.graph.kind? i = some (.inst ⟨op, pt.block, attr⟩) := by
  rw [inserted.kind? i, if_pos rfl]

private theorem kind?_block : t.graph.kind? pt.block =
      some (.block { d with insts := d.insts.insertIdx pt.index i }) := by
  rw [inserted.kind? pt.block, if_neg inserted.block_ne, if_pos rfl]

theorem kind?_of_ne (notInst : v ≠ i) (nb : v ≠ pt.block) : t.graph.kind? v = m.graph.kind? v := by
  rw [inserted.kind? v, if_neg notInst, if_neg nb]

theorem opcode? (notInst : v ≠ i) : t.graph.opcode? v = m.graph.opcode? v := by
  rw [Graph.opcode?, Graph.opcode?]
  by_cases hb : v = pt.block
  · rw [hb, inserted.kind?_block, inserted.block]
    rfl
  · rw [inserted.kind?_of_ne notInst hb]

theorem opcode?_self : t.graph.opcode? i = some op :=
  opcode?_eq inserted.kind?_self

theorem isBlock (v : ValueId) : t.graph.isBlock v = m.graph.isBlock v := by
  rw [Graph.isBlock, Graph.isBlock]
  by_cases isInst : v = i
  · rw [isInst, inserted.kind?_self, inserted.fresh, kind?_fresh]
    rfl
  · by_cases hb : v = pt.block
    · rw [hb, inserted.kind?_block, inserted.block]
      rfl
    · rw [inserted.kind?_of_ne isInst hb]

theorem code (v : ValueId) : t.graph.code v =
      if v = pt.block then (m.graph.code v).insertIdx pt.index i else m.graph.code v := by
  by_cases isInst : v = i
  · rw [if_neg (isInst ▸ Ne.symm inserted.block_ne), isInst, Graph.code, inserted.kind?_self,
      Graph.code, inserted.fresh, kind?_fresh]
    rfl
  · by_cases hb : v = pt.block
    · rw [if_pos hb, hb, code_of_kind? inserted.kind?_block, code_of_kind? inserted.block]
    · rw [if_neg hb, Graph.code, inserted.kind?_of_ne isInst hb, Graph.code]

theorem code_split : m.graph.code pt.block =
        (m.graph.code pt.block).take pt.index ++ (m.graph.code pt.block).drop pt.index ∧
      t.graph.code pt.block = (m.graph.code pt.block).take pt.index ++
          i :: (m.graph.code pt.block).drop pt.index := by
  refine ⟨(take_append_drop ..).symm, ?_⟩
  have lt := inserted.bound
  rw [← code_of_kind? inserted.block] at lt
  rw [inserted.code, if_pos rfl, insertIdx_eq_append _ _ _ lt]

theorem mem_code (b v : ValueId) :
    v ∈ t.graph.code b ↔ (b = pt.block ∧ v = i) ∨ v ∈ m.graph.code b := by
  by_cases isHere : b = pt.block
  · obtain ⟨pre, now⟩ := inserted.code_split
    subst isHere
    rw [now]
    nth_rewrite 3 [pre]
    simp only [mem_append, mem_cons, true_and]
    tauto
  · rw [inserted.code, if_neg isHere]
    simp [isHere]

theorem kind?_inst {old : Inst} (ne : v ≠ i) :
    t.graph.kind? v = some (.inst old) ↔ m.graph.kind? v = some (.inst old) := by
  by_cases isHere : v = pt.block
  · rw [isHere, inserted.kind?_block, inserted.block]
    constructor <;> intro hit <;> cases hit
  · rw [inserted.kind?_of_ne ne isHere]

theorem layout {fn : ValueId} (into : fn.index < m.graph.values.size) :
    t.graph.layout fn = m.graph.layout fn := by
  rw [Graph.layout, inserted.operandsOf fn, if_neg (inserted.ne_of_lt into), Graph.layout]

private theorem grows_of_entry (entry : ValueId)
    (here : pt.block ≠ entry → pt.index = (m.graph.code pt.block).length)
    (ls : ∀ front last, m.graph.code entry = front ++ [last] → m.graph.isTerminator last →
      ∃ more, t.graph.code entry = front ++ more ++ [last] ∧
        ∀ v ∈ more, t.graph.opcode? v = some .alloca) : m.graph.Grows entry t.graph := by
  refine ⟨by rw [inserted.size]; exact Nat.le_succ _, ?_, ?_, ?_, ?_, ls⟩
  · intro v ty hit
    rw [inserted.ty? v, if_neg, hit]
    exact inserted.ne_of_lt (lt_of_ty? hit)
  · intro v k hit nb
    rw [inserted.kind?_of_ne (inserted.ne_of_lt (lt_of_kind? hit)), hit]
    rintro rfl
    rw [inserted.block] at hit
    cases hit
    cases nb
  · intro v data' hit
    by_cases isHere : v = pt.block
    · subst isHere
      obtain rfl : d = data' := by
        rw [inserted.block] at hit
        cases hit
        rfl
      refine ⟨_, inserted.kind?_block, fun ne => ?_⟩
      rw [here ne, code_of_kind? inserted.block, insertIdx_length_self]
      exact prefix_append _ _
    · exact ⟨data'.insts, by rw [inserted.kind?_of_ne (inserted.ne_of_lt (lt_of_kind? hit)) isHere, hit],
        fun _ => prefix_rfl⟩
  · intro v data' hit
    rw [inserted.operandsOf v, if_neg (inserted.ne_of_lt (lt_of_kind? hit))]

theorem opened (atEnd : pt.index = (m.graph.code pt.block).length) : m.graph.lastOf pt.block = none := by
  cases ends : m.graph.lastOf pt.block with
  | none => rfl
  | some last =>
    have pre := (inserted.allowed last ends).2
    rw [atEnd, code_of_kind? inserted.block] at pre
    exact absurd pre (Nat.lt_irrefl _)

theorem code_end (atEnd : pt.index = (m.graph.code pt.block).length) :
    t.graph.code pt.block = m.graph.code pt.block ++ [i] := by
  rw [inserted.code, if_pos rfl, atEnd, insertIdx_length_self]

theorem grows (entry : ValueId) (atEnd : pt.index = (m.graph.code pt.block).length) :
    m.graph.Grows entry t.graph := by
  refine inserted.grows_of_entry entry (fun _ => atEnd) ?_
  intro front last cs ends
  by_cases isEntry : pt.block = entry
  · have missing := inserted.opened atEnd
    rw [isEntry, Graph.lastOf, cs, getLast?_concat, Option.filter_some, if_pos ends] at missing
    cases missing
  · exact ⟨[], by rw [inserted.code, if_neg (Ne.symm isEntry), cs]; simp, by simp⟩

end

end Inserted

theorem Allocated.code (allocated : Allocated m t slot ty n entry d) : t.graph.code entry =
      (m.graph.code entry).take (slotPosition m.graph entry) ++
        slot :: (m.graph.code entry).drop (slotPosition m.graph entry) :=
  allocated.inserted.code_split.2

theorem Allocated.grows (allocated : Allocated m t slot ty n entry d) : m.graph.Grows entry t.graph := by
  refine Inserted.grows_of_entry allocated.inserted entry (fun ne => absurd rfl ne) ?_
  intro front last cs ends
  have position : slotPosition m.graph entry = front.length := by
    have closed : m.graph.lastOf entry = some last := by
      rw [Graph.lastOf, cs, getLast?_concat, Option.filter_some, if_pos ends]
    rw [slotPosition, closed, cs]
    simp
  refine ⟨[slot], ?_, ?_⟩
  · have split := allocated.code
    rw [position, cs] at split
    simpa using split
  · intro v mem
    obtain rfl := mem_singleton.1 mem
    exact allocated.inserted.opcode?_self

end Midend.Builder
