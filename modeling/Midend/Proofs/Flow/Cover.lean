import Midend.Proofs.Flow.WellFormed

/-! What the code of a function may refer to, and when. A cover says which results are at hand
where a block begins; if it holds along every edge, then a result that an instruction uses was
computed before on every way that control can take there. The operands of a block record the
edges that lead to it. -/
namespace Midend.Graph
open List
variable {g : Graph} {f entry : ValueId} {av : ValueId → ValueId → Prop}
variable {fs gs : List ValueId} {v : ValueId}

inductive Path (g : Graph) (entry : ValueId) : List ValueId → ValueId → Prop
  | start : Path g entry [] entry
  | next {passed : List ValueId} {block target : ValueId} : Path g entry passed block →
    target ∈ g.exits block → Path g entry (passed ++ [block]) target

def Result (g : Graph) (v : ValueId) : Prop :=
  ∃ data, g.kind? v = some (.inst data) ∧ data.opcode.isTerminator = false

structure Covered (g : Graph) (func entry : ValueId) (avail : ValueId → ValueId → Prop) : Prop where
  bare : ∀ v, ¬ avail entry v
  inner : ∀ block v, avail block v → g.Result v
  edges : ∀ block ∈ g.layout func, ∀ next ∈ g.exits block, ∀ v, avail next v →
    avail block v ∨ v ∈ g.code block
  results : ∀ block ∈ g.layout func, ∀ inst ∈ g.code block, ∀ v data, some v ∈ g.operandsOf inst →
    g.kind? v = some (.inst data) →
      [v, inst].Sublist (g.code block) ∨ avail block v ∨ block ≠ entry ∧ v ∈ g.code entry

inductive Shared (g : Graph) (functions globals : List ValueId) (func v : ValueId) : Prop
  | int {value : Int64} (found : g.kind? v = some (.constInt value))
  | str {value : String} (found : g.kind? v = some (.constStr value))
  | global {name : String} (found : g.kind? v = some (.global name)) (listed : v ∈ globals)
  | function {data : Func} (found : g.kind? v = some (.function data)) (listed : v ∈ functions)
  | argument {index : Nat} {name : String} {data : Func} (found : g.kind? v = some (.argument index name))
      (owner : g.kind? func = some (.function data)) (listed : v ∈ data.args)

theorem Shared.data (shared : g.Shared fs gs f v) :
    ∃ k, g.kind? v = some k ∧ k.isBlock = false ∧ k.isInst = false := by
  cases shared with
  | int hit => exact ⟨_, hit, rfl, rfl⟩
  | str hit => exact ⟨_, hit, rfl, rfl⟩
  | global hit => exact ⟨_, hit, rfl, rfl⟩
  | function hit => exact ⟨_, hit, rfl, rfl⟩
  | argument hit => exact ⟨_, hit, rfl, rfl⟩

theorem Shared.stays {t : Graph} {functions' globals' : List ValueId} (shared : g.Shared fs gs f v)
    (d : ∀ v k, g.kind? v = some k → k.isBlock = false → k.isInst = false → t.kind? v = some k)
    (more : fs ⊆ functions') (moreGlobals : gs ⊆ globals') : t.Shared functions' globals' f v := by
  cases shared with
  | int hit => exact .int (d v _ hit rfl rfl)
  | str hit => exact .str (d v _ hit rfl rfl)
  | global hit mem => exact .global (d v _ hit rfl rfl) (moreGlobals mem)
  | function hit mem => exact .function (d v _ hit rfl rfl) (more mem)
  | argument hit owner mem => exact .argument (d v _ hit rfl rfl) (d f _ owner rfl rfl) mem

inductive Operand (g : Graph) (functions globals : List ValueId) (func inst : ValueId) : Option ValueId → Prop
  | shared {v : ValueId} (shared : g.Shared functions globals func v) : Operand g functions globals func inst (some v)
  | target {v : ValueId} (ends : g.isTerminator inst) (inside : v ∈ g.layout func) :
      Operand g functions globals func inst (some v)
  | result {v : ValueId} {data : Inst} (found : g.kind? v = some (.inst data))
      (inner : g.isTerminator v = false) : Operand g functions globals func inst (some v)

theorem Operand.inner {i : ValueId} {d : Inst} (arg : g.Operand fs gs f i (some v))
    (wf : g.Structured f) (hit : g.kind? v = some (.inst d)) : g.isTerminator v = false := by
  cases arg with
  | shared shared =>
    obtain ⟨k, isKind, _, notInst⟩ := shared.data
    cases isKind.symm.trans hit
    cases notInst
  | target _ into =>
    obtain ⟨b, hb⟩ := wf.blocks v into
    cases hb.symm.trans hit
  | result _ inner => exact inner

def incomingFrom (g : Graph) (block pred : ValueId) : List (Option ValueId) :=
  List.replicate ((g.exits pred).count block) (some pred)

def incoming (g : Graph) (func block : ValueId) : List (Option ValueId) :=
  (g.layout func).flatMap (g.incomingFrom block)

def Recorded (g : Graph) (func : ValueId) : Prop :=
  ∀ block ∈ g.layout func, (g.operandsOf block).Perm (g.incoming func block)

inductive Part (g : Graph) (func : ValueId) : ValueId → Prop
  | self : Part g func func
  | block {block : ValueId} (member : block ∈ g.layout func) : Part g func block
  | inst {block inst : ValueId} (member : block ∈ g.layout func) (listed : inst ∈ g.code block) : Part g func inst

structure Tracked (g : Graph) (functions globals : List ValueId) (func entry : ValueId) : Prop where
  head : (g.operandsOf func).head? = some (some entry)
  operands : ∀ block ∈ g.layout func, ∀ inst ∈ g.code block, ∀ slot ∈ g.operandsOf inst,
    g.Operand functions globals func inst slot
  once : ∀ block ∈ g.layout func, (g.code block).Nodup
  covered : ∃ avail, g.Covered func entry avail
  recorded : g.Recorded func
  owned : ∀ block ∈ g.layout func, ∀ user, some block ∈ g.operandsOf user → g.Part func user

theorem Tracked.entry_mem (tracked : g.Tracked fs gs f entry) : entry ∈ g.layout f :=
  mem_filterMap.2 ⟨some entry, mem_of_head? tracked.head, rfl⟩

def Housed (g : Graph) (func : ValueId) : Prop :=
  ∀ block ∈ g.layout func, ∀ inst ∈ g.code block, ∀ v data, some v ∈ g.operandsOf inst →
    g.kind? v = some (.inst data) → ∃ home ∈ g.layout func, v ∈ g.code home

namespace Path
variable {b : ValueId} {passed : List ValueId}

theorem mem_layout (path : g.Path entry passed b)
    (closed : ∀ b ∈ g.layout f, ∀ dest ∈ g.exits b, dest ∈ g.layout f)
    (into : entry ∈ g.layout f) : b ∈ g.layout f ∧ ∀ b ∈ passed, b ∈ g.layout f := by
  induction path with
  | start => exact ⟨into, by simp⟩
  | next _ goes ih =>
    refine ⟨closed _ ih.1 _ goes, ?_⟩
    intro b member
    rcases mem_append.1 member with member | member
    · exact ih.2 b member
    · exact mem_singleton.1 member ▸ ih.1

theorem entry_mem (path : g.Path entry passed b) (other : b ≠ entry) : entry ∈ passed := by
  induction path with
  | start => exact absurd rfl other
  | @next passed mid _ _ _ ih =>
    by_cases eq : mid = entry
    · simp [eq]
    · exact mem_append_left _ (ih eq)

theorem of_reaches (reached : g.Reaches entry b) : ∃ passed, g.Path entry passed b := by
  induction reached with
  | start => exact ⟨[], .start⟩
  | next _ goes ih =>
    obtain ⟨passed, path⟩ := ih
    exact ⟨_, path.next goes⟩

end Path

theorem mem_of_pair_sublist {α : Type} {front tl : List α} {x y : α} (once : (front ++ y :: tl).Nodup)
    (pair : [x, y].Sublist (front ++ y :: tl)) : x ∈ front := by
  induction front with
  | nil =>
    have outside := (nodup_cons.1 once).1
    cases pair with
    | cons _ within => exact absurd (within.subset (by simp)) outside
    | cons_cons _ within => exact absurd (within.subset (by simp)) outside
  | cons head front ih =>
    cases pair with
    | cons _ within => exact mem_cons_of_mem _ (ih (nodup_cons.1 once).2 within)
    | cons_cons _ _ => exact mem_cons_self

namespace Covered
variable {b v : ValueId} {passed : List ValueId}

theorem computed (covered : g.Covered f entry av)
    (closed : ∀ b ∈ g.layout f, ∀ dest ∈ g.exits b, dest ∈ g.layout f)
    (into : entry ∈ g.layout f) (path : g.Path entry passed b) (old : av b v) :
    v ∈ passed.flatMap g.code := by
  induction path with
  | start => exact absurd old (covered.bare v)
  | next path goes ih =>
    rw [flatMap_append, mem_append]
    rcases covered.edges _ (path.mem_layout closed into).1 _ goes v old with pre | here
    · exact .inl (ih pre)
    · exact .inr (by simpa using here)

theorem computed_before (covered : g.Covered f entry av)
    (closed : ∀ b ∈ g.layout f, ∀ dest ∈ g.exits b, dest ∈ g.layout f)
    (into : entry ∈ g.layout f) {front rest : List ValueId} {i : ValueId} {d : Inst}
    (path : g.Path entry passed b) (code : g.code b = front ++ i :: rest) (once : (g.code b).Nodup)
    (used : some v ∈ g.operandsOf i) (res : g.kind? v = some (.inst d)) : v ∈ passed.flatMap g.code ++ front := by
  rw [mem_append]
  have mem : i ∈ g.code b := by simp [code]
  rcases covered.results b (path.mem_layout closed into).1 i mem v d used res with
    early | known | ⟨other, first⟩
  · rw [code] at early once
    exact .inr (mem_of_pair_sublist once early)
  · exact .inl (covered.computed closed into path known)
  · exact .inl (mem_flatMap.2 ⟨entry, path.entry_mem other, first⟩)

end Covered

open scoped List in
theorem perm_flatMap_change {α β : Type} {items : List α} {item : α} {f f' : α → List β}
    (nodup : items.Nodup) (mem : item ∈ items) (eq : ∀ other ∈ items, other ≠ item → f' other = f other) :
    (items.flatMap f' ++ f item).Perm (items.flatMap f ++ f' item) := by
  obtain ⟨front, back, rfl⟩ := append_of_mem mem
  have apart : ∀ other, other ∈ front ∨ other ∈ back → other ≠ item := by
    rintro other place rfl
    have split := nodup_append.1 nodup
    rcases place with pre | behind
    · exact split.2.2 other pre other mem_cons_self rfl
    · exact (nodup_cons.1 split.2.1).1 behind
  have left : front.flatMap f' = front.flatMap f :=
    flatMap_congr fun other isIn => eq other (by simp [isIn]) (apart other (.inl isIn))
  have right : back.flatMap f' = back.flatMap f :=
    flatMap_congr fun other isIn => eq other (by simp [isIn]) (apart other (.inr isIn))
  simp only [flatMap_append, flatMap_cons, left, right, append_assoc]
  refine List.Perm.append_left _ ?_
  calc f' item ++ (back.flatMap f ++ f item)
      _ ~ (back.flatMap f ++ f item) ++ f' item := perm_append_comm
      _ ~ (f item ++ back.flatMap f) ++ f' item := perm_append_comm.append_right _
      _ = f item ++ (back.flatMap f ++ f' item) := append_assoc ..

namespace Recorded
variable {t : Graph}

theorem congr (recorded : g.Recorded f) (layout : (t.layout f).Perm (g.layout f))
    (exits : ∀ b ∈ g.layout f, t.exits b = g.exits b)
    (ops : ∀ b ∈ g.layout f, t.operandsOf b = g.operandsOf b) : t.Recorded f := by
  intro b mem
  have old := layout.mem_iff.1 mem
  have eq : (g.layout f).flatMap (t.incomingFrom b) = g.incoming f b :=
    flatMap_congr fun pred isIn => by rw [incomingFrom, exits pred isIn, incomingFrom]
  rw [ops b old]
  exact (recorded b old).trans (eq ▸ (layout.flatMap_right _).symm)

theorem closed {here : ValueId} {dests : List ValueId} (recorded : g.Recorded f)
    (nodup : (g.layout f).Nodup) (mem : here ∈ g.layout f) (layout : t.layout f = g.layout f)
    (exits : ∀ b ∈ g.layout f, b ≠ here → t.exits b = g.exits b)
    (ho : g.exits here = []) (leads : t.exits here = dests)
    (ops : ∀ b ∈ g.layout f, t.operandsOf b =
      g.operandsOf b ++ (dests.filter (· = b)).map fun _ => some here) : t.Recorded f := by
  intro b into
  rw [layout] at into
  have upd := @perm_flatMap_change _ _ _ _ (g.incomingFrom b) (t.incomingFrom b) nodup mem
    fun other isIn ne => by rw [incomingFrom, exits other isIn ne, incomingFrom]
  have new : (dests.filter (· = b)).map (fun _ => some here) =
      List.replicate (dests.count b) (some here) := by
    rw [map_const', count_eq_length_filter]
    congr 2
  rw [incomingFrom, ho, count_nil, replicate_zero, append_nil, incomingFrom, leads] at upd
  rw [ops b into, new, incoming, layout]
  exact ((recorded b into).append_right _).trans upd.symm

theorem added {b : ValueId} (recorded : g.Recorded f) (layout : t.layout f = g.layout f ++ [b])
    (exits : ∀ other ∈ g.layout f, t.exits other = g.exits other)
    (ops : ∀ other ∈ g.layout f, t.operandsOf other = g.operandsOf other)
    (blank : t.exits b = []) (none : t.operandsOf b = [])
    (unknown : ∀ other ∈ g.layout f, b ∉ g.exits other) : t.Recorded f := by
  have incoming : ∀ dest, t.incoming f dest = g.incoming f dest := by
    intro dest
    rw [Graph.incoming, layout, flatMap_append, flatMap_singleton, incomingFrom, blank, count_nil,
      replicate_zero, append_nil]
    exact flatMap_congr fun pred isIn => by rw [incomingFrom, exits pred isIn, incomingFrom]
  intro dest mem
  rw [incoming]
  rw [layout, mem_append, mem_singleton] at mem
  rcases mem with old | rfl
  · rw [ops dest old]
    exact recorded dest old
  · rw [none, Graph.incoming, flatMap_eq_nil_iff.2]
    intro pred isIn
    rw [incomingFrom, count_eq_zero.2 (unknown pred isIn), replicate_zero]

end Recorded

end Midend.Graph
