import Midend.Proofs.Flow.Append
import Mathlib.Data.List.Perm.Subperm
import Mathlib.Logic.Relation

/-! Rounds of merging: the blocks of a function are gone over, merged or removed until nothing
changes. Blocks are looked at in an order and with a set of reachable blocks that were found
before the round, which may be out of date by then. -/
namespace Midend
open List Graph

theorem nodup_eraseDups (items : List ValueId) : items.eraseDups.Nodup := by
  induction h : items.length using Nat.strongRecOn generalizing items with
  | ind length ih =>
    cases items with
    | nil => exact nodup_nil
    | cons item tl =>
      have shorter := length_filter_le (fun other => !other == item) tl
      rw [eraseDups_cons, nodup_cons]
      refine ⟨?_, ih _ (by simp at h; omega) _ rfl⟩
      intro mem
      simpa using (mem_filter.1 (mem_eraseDups.1 mem)).2

private theorem length_le_of_nodup {items : List ValueId} {size : Nat} (nodup : items.Nodup)
    (inside : ∀ v ∈ items, v.index < size) : items.length ≤ size := by
  have injective : Function.Injective ValueId.index := by
    rintro ⟨i⟩ ⟨j⟩ eq
    exact congrArg ValueId.mk eq
  have subset : items.map ValueId.index ⊆ List.range size := by
    intro i mem
    obtain ⟨v, inItems, rfl⟩ := mem_map.1 mem
    exact mem_range.2 (inside v inItems)
  have short := (subperm_of_subset (nodup.map injective) subset).length_le
  simpa using short

namespace Graph
variable {b : ValueId} {live : List ValueId} {t : Graph} {fuel : Nat}

structure Searching (g : Graph) (home stack seen : List ValueId) : Prop where
  blocks : ∀ block ∈ home, ∃ data, g.kind? block = some (.block data)
  closed : ∀ block ∈ home, ∀ target ∈ g.succsOf block, target ∈ home
  known : ∀ block ∈ seen, block ∈ home
  waiting : ∀ block ∈ stack, block ∈ seen
  nodup : seen.Nodup
  finished : ∀ block ∈ seen, block ∈ stack ∨ ∀ target ∈ g.succsOf block, target ∈ seen

/-- A search keeps its invariant when one block is taken from the stack. -/
theorem Searching.next {g : Graph} {home stack seen : List ValueId} {b : ValueId}
    (searching : g.Searching home (b :: stack) seen) :
    g.Searching home (((g.succsOf b).filter (· ∉ seen)).eraseDups ++ stack)
      (((g.succsOf b).filter (· ∉ seen)).eraseDups ++ seen) := by
  have here := searching.waiting b (mem_cons_self ..)
  have fresh : ∀ v, v ∈ ((g.succsOf b).filter (· ∉ seen)).eraseDups ↔ v ∈ g.succsOf b ∧ v ∉ seen := by
    intro v
    rw [mem_eraseDups, mem_filter]
    simp
  refine ⟨searching.blocks, searching.closed, ?_, ?_, ?_, ?_⟩
  · intro v mem
    rcases mem_append.1 mem with new | old
    · exact searching.closed b (searching.known b here) v ((fresh v).1 new).1
    · exact searching.known v old
  · intro v mem
    rcases mem_append.1 mem with new | old
    · exact mem_append_left _ new
    · exact mem_append_right _ (searching.waiting v (mem_cons_of_mem _ old))
  · refine nodup_append.2 ⟨nodup_eraseDups _, searching.nodup, ?_⟩
    rintro v new w old rfl
    exact ((fresh v).1 new).2 old
  · intro v mem
    rcases mem_append.1 mem with new | old
    · exact .inl (mem_append_left _ new)
    · rcases searching.finished v old with onStack | done
      · rcases mem_cons.1 onStack with rfl | below
        · right
          intro dest edge
          by_cases pre : dest ∈ seen
          · exact mem_append_right _ pre
          · exact mem_append_left _ ((fresh dest).2 ⟨edge, pre⟩)
        · exact .inl (mem_append_right _ below)
      · exact .inr fun dest edge => mem_append_right _ (done dest edge)

/-- The search ends with a set of blocks that no edge leaves. Each step takes a block from
the stack, and only blocks that were not seen are put on it. -/
theorem Searching.explore {g : Graph} {home stack seen : List ValueId}
    (searching : g.Searching home stack seen) {fuel : Nat}
    (enough : stack.length + (g.values.size - seen.length) ≤ fuel) :
    ∃ live, g.explore fuel stack seen = .ok live ∧ (∀ b ∈ seen, b ∈ live) ∧
      ∀ b ∈ live, ∀ dest ∈ g.succsOf b, dest ∈ live := by
  induction fuel generalizing stack seen with
  | zero =>
    obtain rfl : stack = [] := length_eq_zero_iff.1 (by omega)
    exact ⟨seen, rfl, fun _ mem => mem, fun b mem =>
      (searching.finished b mem).resolve_left not_mem_nil⟩
  | succ fuel ih =>
    cases stack with
    | nil =>
      exact ⟨seen, rfl, fun _ mem => mem, fun b mem =>
        (searching.finished b mem).resolve_left not_mem_nil⟩
    | cons b stack =>
      have next := searching.next
      obtain ⟨d, hit⟩ := searching.blocks b
        (searching.known b (searching.waiting b (mem_cons_self ..)))
      have bounded := length_le_of_nodup next.nodup fun v mem =>
        lt_of_kind? (next.blocks v (next.known v mem)).choose_spec
      obtain ⟨live, done, incl, closed⟩ := ih next (by
        simp only [length_append, length_cons] at enough bounded ⊢
        omega)
      refine ⟨live, ?_, fun v mem => incl v (mem_append_right _ mem), closed⟩
      rw [Graph.explore, block_eq_ok.2 hit]
      rw [succsOf_of_kind? hit] at done
      exact done

variable {g : Graph} {func entry : ValueId} {home : List ValueId}

def Live (g : Graph) (entry : ValueId) (live : List ValueId) : Prop :=
  ∀ block, g.Reaches entry block → block ∈ live

theorem Merging.reachable (merging : g.Merging func entry home) :
    ∃ live, g.reachable entry = .ok live ∧ g.Live entry live := by
  have s0 := merging.entry_mem
  have searching : g.Searching home [entry] [entry] := by
    refine ⟨merging.homeBlocks, merging.homeSuccs, ?_, fun _ mem => mem, by simp, ?_⟩
    · intro b mem
      exact mem_singleton.1 mem ▸ merging.listed entry s0
    · intro b mem
      exact .inl mem
  obtain ⟨live, done, incl, closed⟩ := @Searching.explore g _ _ _ searching (g.values.size + 1) (by
    simp only [length_cons, length_nil]
    omega)
  refine ⟨live, done, ?_⟩
  intro b path
  induction path with
  | start => exact incl entry (mem_cons_self ..)
  | @next source dest path goes ih =>
    have isIn := path.mem_layout merging.toStructured s0
    have edge := (merging.succs source isIn dest (merging.targets source isIn dest goes)).2 goes
    exact closed source ih dest edge

private theorem canMerge_isOk {pred b : ValueId} {d : Block}
    (hit : g.kind? pred = some (.block d)) : ∃ answer, g.canMerge pred b = .ok answer := by
  unfold Graph.canMerge
  simp only [block_eq_ok.2 hit, Consistent.terminator? hit, bind, Except.bind, pure, Except.pure]
  split
  · exact ⟨_, rfl⟩
  · split
    · exact ⟨_, rfl⟩
    · exact ⟨_, rfl⟩

private theorem canMerge_eq_true {pred : ValueId} (can : g.canMerge pred b = .ok true) :
    pred ≠ b ∧ g.succsOf pred = [b] ∧ ∃ jump, g.lastOf pred = some jump ∧ g.opcode? jump = some .jmp := by
  unfold Graph.canMerge at can
  split at can
  next => cases can
  next ne =>
    obtain ⟨d, read, can⟩ := bind_eq_ok.1 can
    have hit := block_eq_ok.1 read
    split at can
    next => cases can
    next leaves =>
      rw [Consistent.terminator? hit] at can
      have jumps : (g.lastOf pred).bind g.opcode? = some .jmp := by
        simpa [bind, Except.bind, pure, Except.pure] using can
      rw [succsOf_of_kind? hit]
      exact ⟨ne, Classical.byContradiction leaves, Option.bind_eq_some_iff.1 jumps⟩

structure Tidied (g after : Graph) (func : ValueId) : Prop where
  formed : g.Structured func
  rewired : g.Rewired after fun v old => if v = func then old.filter (· ≠ none) else old

inductive MergeStep (func entry : ValueId) (home : List ValueId) (g after : Graph) : Prop
  | removed {block : ValueId} (merging : g.Merging func entry home) (away : block ≠ entry)
      (unreached : ¬ g.Reaches entry block) (removed : g.Without after func block)
  | appended {pred block jump : ValueId} (merged : g.Appended after func entry home pred block jump)
  | tidied (merging : g.Merging func entry home) (tidied : g.Tidied after func)

def MergeSteps (func entry : ValueId) (home : List ValueId) : Graph → Graph → Prop :=
  Relation.ReflTransGen (MergeStep func entry home)

private theorem filterMap_filter_none (refs : List (Option ValueId)) :
    (refs.filter (· ≠ none)).filterMap id = refs.filterMap id := by
  induction refs with
  | nil => rfl
  | cons dest tl ih => cases dest <;> simpa using ih

namespace Tidied
variable {t : Graph}

section
variable (tidied : g.Tidied t func)
include tidied

theorem operandsOf_func : t.operandsOf func = (g.operandsOf func).filter (· ≠ none) := by
  rw [tidied.rewired.operandsOf func, if_pos rfl]

theorem layout : t.layout func = g.layout func := by
  rw [Graph.layout, tidied.operandsOf_func, filterMap_filter_none, Graph.layout]

theorem head (first : (g.operandsOf func).head? = some (some entry)) :
    (t.operandsOf func).head? = some (some entry) := by
  obtain ⟨tl, split⟩ := head?_eq_some_iff.1 first
  simp [tidied.operandsOf_func, split]

theorem sameFlow : g.SameFlow t func :=
  tidied.rewired.edited.sameFlow (fun _ _ => rfl) (fun _ ne => if_neg ne) tidied.layout

theorem merging (merging : g.Merging func entry home) : t.Merging func entry home := by
  have layout := tidied.layout
  have eq := tidied.sameFlow
  have wired := tidied.rewired
  have wf := merging.toStructured
  have succs : t.succsOf = g.succsOf := funext fun v => by
    rw [Graph.succsOf, wired.kind? v, Graph.succsOf]
  have preds : t.predsOf = g.predsOf := funext fun v => by
    rw [Graph.predsOf, wired.kind? v, Graph.predsOf]
  refine ⟨eq.structured wf, tidied.head merging.first, ?_, ?_, ?_, ?_, ?_⟩
  · simpa only [layout, succs, eq.exits wf] using merging.succs
  · simpa only [layout, succs, preds] using merging.preds
  · simpa only [layout] using merging.listed
  · simpa only [wired.kind?] using merging.homeBlocks
  · simpa only [succs] using merging.homeSuccs

end

end Tidied

theorem Merging.tidyBlocks (merging : g.Merging func entry home) :
    ∃ t, g.tidyBlocks func entry = .ok t ∧ g.Tidied t func := by
  have wf := merging.toStructured
  obtain ⟨t, done, wired⟩ := wf.consistent.removeValue_rewired wf.inside none
  have tidied : g.Tidied t func := ⟨wf, wired⟩
  have kept := tidied.sameFlow.structured wf
  refine ⟨t, ?_, tidied⟩
  have slot : (t.operandsOf func).findIdx? (· == some entry) = some 0 := by
    obtain ⟨tl, split⟩ := head?_eq_some_iff.1 (tidied.head merging.first)
    simp [split, findIdx?_cons]
  unfold Graph.tidyBlocks
  simp only [done, bind, Except.bind, kept.consistent.blockSlot kept.inside, slot]
  rfl

namespace MergeStep
variable {t : Graph}

section
variable (step : MergeStep func entry home g t)
include step

theorem merging : t.Merging func entry home := by
  cases step with
  | removed merging away _ removed => exact removed.merging merging away
  | appended hm => exact hm.merging
  | tidied merging tidied => exact tidied.merging merging

theorem wellFormed (wf : g.WellFormed func) : t.WellFormed func := by
  cases step with
  | removed _ _ _ removed => exact removed.wellFormed wf
  | appended hm => exact hm.wellFormed wf
  | tidied _ tidied => exact tidied.sameFlow.wellFormed wf

theorem sameRuns : g.SameRuns t entry := by
  cases step with
  | removed merging away unreached removed => exact removed.sameRuns merging.entry_mem unreached away
  | appended hm => exact hm.sameRuns
  | tidied merging tidied => exact tidied.sameFlow.sameRuns merging.toStructured merging.entry_mem

theorem layout_sublist : (t.layout func).Sublist (g.layout func) := by
  cases step with
  | removed _ _ _ removed => exact removed.layout ▸ filter_sublist
  | appended hm => exact hm.layout ▸ filter_sublist
  | tidied _ tidied => rw [tidied.layout]

theorem reached {v : ValueId} (path : g.Reaches entry v)
    (mem : v ∈ t.layout func) : t.Reaches entry v := by
  cases step with
  | removed merging _ unreached removed => exact removed.reached merging.entry_mem unreached path
  | appended hm => exact (hm.reached path).resolve_right fun gone => (hm.mem_layout_iff.1 mem).2 gone.1
  | tidied merging tidied => exact (tidied.sameFlow.reaches merging.toStructured merging.entry_mem).2 path

theorem reaches {v : ValueId} (path : t.Reaches entry v) : g.Reaches entry v := by
  cases step with
  | removed merging away _ removed => exact (removed.reaches merging.entry_mem away path).1
  | appended hm => exact (hm.reaches path).1
  | tidied merging tidied => exact (tidied.sameFlow.reaches merging.toStructured merging.entry_mem).1 path

end

end MergeStep

namespace MergeSteps
variable {t : Graph}
variable {v : ValueId}

section
variable (steps : MergeSteps func entry home g t)
include steps

theorem merging (merging : g.Merging func entry home) : t.Merging func entry home := by
  induction steps with
  | refl => exact merging
  | tail _ step _ => exact step.merging

theorem wellFormed (wf : g.WellFormed func) : t.WellFormed func := by
  induction steps with
  | refl => exact wf
  | tail _ step ih => exact step.wellFormed ih

theorem sameRuns : g.SameRuns t entry := by
  induction steps with
  | refl => exact .refl g entry
  | tail _ step ih => exact ih.trans step.sameRuns

theorem layout_sublist : (t.layout func).Sublist (g.layout func) := by
  induction steps with
  | refl => exact .refl _
  | tail _ step ih => exact step.layout_sublist.trans ih

theorem mem_layout (mem : v ∈ t.layout func) : v ∈ g.layout func :=
  steps.layout_sublist.subset mem

private theorem length_layout : (t.layout func).length ≤ (g.layout func).length :=
  steps.layout_sublist.length_le

theorem reached {v : ValueId} (path : g.Reaches entry v)
    (mem : v ∈ t.layout func) : t.Reaches entry v := by
  induction steps with
  | refl => exact path
  | tail _ step ih => exact step.reached (ih (step.layout_sublist.subset mem)) mem

theorem reaches (path : t.Reaches entry v) : g.Reaches entry v := by
  induction steps with
  | refl => exact path
  | tail _ step ih => exact ih (step.reaches path)

end

end MergeSteps

def Stays (g : Graph) (func entry block : ValueId) : Prop :=
  block ∈ g.layout func → block ≠ entry → ∀ pred, g.predsOf block = [pred] → g.canMerge pred block = .ok false

inductive Looked (func entry : ValueId) (home : List ValueId) (block : ValueId) :
    Bool × Graph → Bool × Graph → Prop
  | left {changed : Bool} {g : Graph} (stays : g.Stays func entry block) : Looked func entry home block (changed, g) (changed, g)
  | taken {changed : Bool} {g after : Graph} (step : MergeStep func entry home g after) (listed : block ∈ g.layout func)
      (layout : after.layout func = (g.layout func).filter (· ≠ block)) :
      Looked func entry home block (changed, g) (true, after)

/-- Each block that is looked at is merged, removed or left. A block that stays was among those
found to be reachable, or is the entry. -/
theorem Merging.mergeBlock (merging : g.Merging func entry home) (alive : g.Live entry live) (upd : Bool)
    (b : ValueId) : ∃ changed' t, Graph.mergeBlock func entry live (upd, g) b = .ok (changed', t) ∧
      Looked func entry home b (upd, g) (changed', t) ∧
      (b ∈ t.layout func → b = entry ∨ b ∈ live) := by
  have wf := merging.toStructured
  unfold Graph.mergeBlock
  simp only [wf.consistent.blockSlot wf.inside, bind, Except.bind]
  split
  next outside =>
    have absent : b ∈ g.layout func → b = entry := by
      intro mem
      refine outside.resolve_right fun missing => ?_
      rw [Option.isNone_iff_eq_none, findIdx?_eq_none_iff] at missing
      have other := missing (some b) (mem_layout.1 mem)
      simp at other
    exact ⟨upd, g, rfl, .left fun mem away => absurd (absent mem) away, fun mem => .inl (absent mem)⟩
  next inside =>
    have away : b ≠ entry := fun eq => inside (.inl eq)
    have mem : b ∈ g.layout func := by
      cases slot : (g.operandsOf func).findIdx? (· == some b) with
      | none => exact absurd (.inr (by rw [slot]; rfl)) inside
      | some index =>
        obtain ⟨lt, hit, _⟩ := findIdx?_eq_some_iff_getElem.1 slot
        have eq : (g.operandsOf func)[index] = some b := beq_iff_eq.1 hit
        exact mem_layout.2 (eq ▸ getElem_mem lt)
    obtain ⟨d, found⟩ := wf.blocks b mem
    split
    next dead =>
      obtain ⟨t, done, removed⟩ := wf.removeBlock mem fun v edge =>
        merging.homeBlocks v (merging.homeSuccs b (merging.listed b mem) v edge)
      refine ⟨true, t, by simp only [done]; rfl, .taken ?_ mem removed.layout, fun stays => ?_⟩
      · exact .removed merging away (fun path => dead (alive b path)) removed
      · exact absurd rfl (removed.mem_layout_iff.1 stays).2
    next old =>
      have old : b ∈ live := by simpa using old
      simp only [block_eq_ok.2 found]
      split
      next pred ent =>
        have isPred : pred ∈ g.predsOf b := by
          rw [predsOf_of_kind? found, ent]
          exact mem_singleton.2 rfl
        obtain ⟨left, _⟩ := (merging.preds b mem pred).1 isPred
        obtain ⟨predData, predFound⟩ := wf.blocks pred left
        obtain ⟨answer, can⟩ := @canMerge_isOk g pred b predData predFound
        simp only [can]
        cases answer with
        | false =>
          refine ⟨upd, g, rfl, .left fun _ _ other isOther => ?_, fun _ => .inr old⟩
          rw [predsOf_of_kind? found, ent] at isOther
          cases isOther
          exact can
        | true =>
          obtain ⟨ne, leaves, jump, ends, jumps⟩ := canMerge_eq_true can
          have chained : g.Chained func entry home pred b jump :=
            ⟨merging, left, mem, ne, away, ends, jumps, leaves, (predsOf_of_kind? found).trans ent⟩
          obtain ⟨t, done, hm⟩ := chained.mergeInto
          exact ⟨true, t, by simp only [if_true, done]; rfl, .taken (.appended hm) mem hm.layout,
            fun _ => .inr old⟩
      next other =>
        refine ⟨upd, g, rfl, .left fun _ _ pred ent => ?_, fun _ => .inr old⟩
        rw [predsOf_of_kind? found] at ent
        exact absurd ent (other pred)

structure Swept (func entry : ValueId) (home blocks : List ValueId) (start final : Bool × Graph) : Prop where
  steps : MergeSteps func entry home start.2 final.2
  idle : final.1 = false → start.1 = false ∧ final.2 = start.2 ∧ ∀ block ∈ blocks, start.2.Stays func entry block
  shorter : final.1 = true → start.1 = true ∨ (final.2.layout func).length < (start.2.layout func).length

theorem Looked.swept {s0 mid final : Bool × Graph} {tl : List ValueId}
    (looked : Looked func entry home b s0 mid) (swept : Swept func entry home tl mid final) :
    Swept func entry home (b :: tl) s0 final := by
  cases looked with
  | left stays =>
    refine ⟨swept.steps, fun unchanged => ?_, swept.shorter⟩
    obtain ⟨isFalse, eq, others⟩ := swept.idle unchanged
    exact ⟨isFalse, eq, forall_mem_cons.2 ⟨stays, others⟩⟩
  | @taken _ g t step mem layout =>
    have fewer : (t.layout func).length < (g.layout func).length := by
      rw [layout]
      exact length_filter_lt_length_iff_exists.2 ⟨b, mem, by simp⟩
    refine ⟨.head step swept.steps, fun unchanged => ?_, fun _ => .inr (Nat.lt_of_le_of_lt ?_ fewer)⟩
    · cases (swept.idle unchanged).1
    · exact swept.steps.length_layout

theorem Merging.mergeEach (merging : g.Merging func entry home) (alive : g.Live entry live) (upd : Bool)
    (bs : List ValueId) :
    ∃ changed' t, bs.foldlM (Graph.mergeBlock func entry live) (upd, g) = .ok (changed', t) ∧
      Swept func entry home bs (upd, g) (changed', t) ∧
      ∀ b ∈ bs, b ∈ t.layout func → b = entry ∨ b ∈ live := by
  induction bs generalizing g upd with
  | nil => exact ⟨upd, g, rfl, ⟨.refl, fun isFalse => ⟨isFalse, rfl, by simp⟩, .inl⟩, by simp⟩
  | cons b tl ih =>
    obtain ⟨changed1, mid, done, looked, kept⟩ := merging.mergeBlock alive upd b
    obtain ⟨still, alive'⟩ : mid.Merging func entry home ∧ mid.Live entry live := by
      cases looked with
      | left => exact ⟨merging, alive⟩
      | taken step => exact ⟨step.merging, fun v path => alive v (step.reaches path)⟩
    obtain ⟨changed2, t, folded, swept, old⟩ := ih still alive' changed1
    refine ⟨changed2, t, bind_eq_ok.2 ⟨_, done, folded⟩, looked.swept swept, ?_⟩
    intro v mem isIn
    rcases mem_cons.1 mem with rfl | later
    · exact kept (swept.steps.mem_layout isIn)
    · exact old v later isIn

theorem Merging.mergeRound (merging : g.Merging func entry home) :
    ∃ live upd t, g.reachable entry = .ok live ∧ g.mergeRound func entry = .ok (upd, t) ∧
      Swept func entry home (g.layout func) (false, g) (upd, t) ∧
      ∀ b ∈ t.layout func, b = entry ∨ b ∈ live := by
  obtain ⟨live, searched, alive⟩ := merging.reachable
  obtain ⟨upd, mid, folded, swept, old⟩ := merging.mergeEach alive false (g.layout func)
  have kept : ∀ b ∈ mid.layout func, b = entry ∨ b ∈ live := fun b mem =>
    old b (swept.steps.mem_layout mem) mem
  unfold Graph.mergeRound
  simp only [searched, merging.consistent.functionBlocks merging.inside, folded, bind, Except.bind]
  cases upd with
  | false => exact ⟨live, false, mid, rfl, rfl, swept, kept⟩
  | true =>
    have still := swept.steps.merging merging
    obtain ⟨t, done, tidied⟩ := still.tidyBlocks
    refine ⟨live, true, t, rfl, by simp only [done]; rfl, ⟨swept.steps.tail (.tidied still tidied), nofun, ?_⟩, ?_⟩
    · rw [tidied.layout]
      exact swept.shorter
    · rw [tidied.layout]
      exact kept

theorem Merging.mergeRounds (merging : g.Merging func entry home) (fuel : Nat) :
    ∃ upd t, mergeRounds fuel g func entry = .ok (upd, t) ∧ MergeSteps func entry home g t := by
  induction fuel generalizing g with
  | zero => exact ⟨false, g, rfl, .refl⟩
  | succ fuel ih =>
    obtain ⟨_, upd, mid, _, done, ⟨steps, _, _⟩, _⟩ := merging.mergeRound
    unfold Graph.mergeRounds
    simp only [done, bind, Except.bind]
    cases upd with
    | false => exact ⟨false, mid, rfl, steps⟩
    | true =>
      obtain ⟨again, t, tl, more⟩ := ih (steps.merging merging)
      exact ⟨true, t, by simp only [tl]; rfl, steps.trans more⟩

section Edges
variable {t : Graph}
variable {b : ValueId}

section
variable (linked : g.Linked t (g.layout func) (g.edges func))
include linked

theorem Linked.mem_succsOf (wf : g.Structured func) {dest : ValueId} (isIn : b ∈ g.layout func) :
    dest ∈ t.succsOf b ↔ dest ∈ g.exits b := by
  obtain ⟨d, hit⟩ := wf.blocks b isIn
  rw [succsOf_of_kind? (linked.block_of hit), if_pos isIn, Graph.linked, mem_eraseDups, mem_map]
  constructor
  · rintro ⟨⟨source, v⟩, mem, rfl⟩
    obtain ⟨edge, hb⟩ := mem_filter.1 mem
    obtain rfl : source = b := by simpa using hb
    exact (mem_edges.1 edge).2
  · intro goes
    exact ⟨(b, dest), mem_filter.2 ⟨mem_edges.2 ⟨isIn, goes⟩, by simp⟩, rfl⟩

theorem Linked.mem_predsOf (wf : g.Structured func) {source : ValueId} (isIn : b ∈ g.layout func) :
    source ∈ t.predsOf b ↔ source ∈ g.layout func ∧ b ∈ g.exits source := by
  obtain ⟨d, hit⟩ := wf.blocks b isIn
  rw [predsOf_of_kind? (linked.block_of hit), if_pos isIn, Graph.linked, mem_eraseDups, mem_map]
  constructor
  · rintro ⟨⟨v, dest⟩, mem, rfl⟩
    obtain ⟨edge, hb⟩ := mem_filter.1 mem
    obtain rfl : dest = b := by simpa using hb
    exact mem_edges.1 edge
  · intro goes
    exact ⟨(source, b), mem_filter.2 ⟨mem_edges.2 goes, by simp⟩, rfl⟩

theorem Linked.sameFlow : g.SameFlow t func := by
  refine Edited.sameFlow linked ?_ (fun _ _ => rfl) ?_
  · intro v d
    split <;> rfl
  · rw [layout, linked.operandsOf func, layout]

end

end Edges

structure Edged (g : Graph) (func : ValueId) : Prop where
  succs : ∀ block ∈ g.layout func, ∀ target, target ∈ g.succsOf block ↔ target ∈ g.exits block
  preds : ∀ block ∈ g.layout func, ∀ source,
    source ∈ g.predsOf block ↔ source ∈ g.layout func ∧ block ∈ g.exits source

theorem Linked.edged (linked : g.Linked t (g.layout func) (g.edges func)) (wf : g.Structured func) :
    t.Edged func := by
  have eq := linked.sameFlow
  refine ⟨?_, ?_⟩
  all_goals rw [eq.layout]
  · intro b mem dest
    rw [linked.mem_succsOf wf mem, eq.exits wf]
  · intro b mem source
    rw [linked.mem_predsOf wf mem, eq.exits wf]

theorem Edged.merging (edged : g.Edged func) (wf : g.Structured func)
    (first : (g.operandsOf func).head? = some (some entry)) : g.Merging func entry (g.layout func) := by
  refine ⟨wf, first, fun b mem dest _ => edged.succs b mem dest, ?_, fun _ mem => mem,
    wf.blocks, ?_⟩
  · intro b mem source
    rw [edged.preds b mem]
    exact and_congr_right fun old => (edged.succs source old b).symm
  · intro b mem dest edge
    exact wf.targets b mem dest ((edged.succs b mem dest).1 edge)

private theorem explore_subset {P : ValueId → Prop} (closed : ∀ b, P b → ∀ dest ∈ g.succsOf b, P dest)
    {stack seen : List ValueId} (waiting : ∀ b ∈ stack, P b) (known : ∀ b ∈ seen, P b)
    (done : g.explore fuel stack seen = .ok live) : ∀ b ∈ live, P b := by
  induction fuel generalizing stack seen with
  | zero =>
    cases done
    exact known
  | succ fuel ih =>
    cases stack with
    | nil =>
      cases done
      exact known
    | cons b stack =>
      obtain ⟨d, read, next⟩ := bind_eq_ok.1 done
      have fresh : ∀ v ∈ (d.succs.filter (· ∉ seen)).eraseDups, P v := by
        intro v mem
        have edge := (mem_filter.1 (mem_eraseDups.1 mem)).1
        rw [← succsOf_of_kind? (block_eq_ok.1 read)] at edge
        exact closed b (waiting b mem_cons_self) v edge
      refine ih ?_ ?_ next
      · intro v mem
        rcases mem_append.1 mem with new | old
        · exact fresh v new
        · exact waiting v (mem_cons_of_mem _ old)
      · intro v mem
        rcases mem_append.1 mem with new | old
        · exact fresh v new
        · exact known v old

theorem Edged.reachable (edged : g.Edged func) (wf : g.Structured func) (ent : entry ∈ g.layout func)
    (searched : g.reachable entry = .ok live) : ∀ b ∈ live, g.Reaches entry b := by
  have s0 : ∀ b ∈ [entry], g.Reaches entry b := fun b mem => mem_singleton.1 mem ▸ .start
  refine explore_subset ?_ s0 s0 searched
  intro b path dest edge
  exact path.next ((edged.succs b (path.mem_layout wf ent) dest).1 edge)

private theorem Merging.mergeRounds_reached {changed : Bool} (merging : g.Merging func entry home)
    (honest : ∀ live, g.reachable entry = .ok live → ∀ b ∈ g.layout func, b ∈ live → g.Reaches entry b)
    (done : Graph.mergeRounds (fuel + 1) g func entry = .ok (changed, t)) :
    ∀ b ∈ t.layout func, t.Reaches entry b := by
  obtain ⟨live, again, mid, searched, round, ⟨steps, _, _⟩, kept⟩ := merging.mergeRound
  have path : ∀ b ∈ mid.layout func, mid.Reaches entry b := by
    intro b mem
    rcases kept b mem with rfl | known
    · exact .start
    · exact steps.reached (honest live searched b (steps.mem_layout mem) known) mem
  obtain ⟨res, isRound, run⟩ := bind_eq_ok.1 (show (g.mergeRound func entry >>= _) = _ from done)
  cases round.symm.trans isRound
  cases again with
  | false =>
    cases run
    exact path
  | true =>
    obtain ⟨last, rest, eq⟩ := bind_eq_ok.1 run
    obtain ⟨changed', final, rest', more⟩ := (steps.merging merging).mergeRounds fuel
    cases rest.symm.trans rest'
    cases eq
    exact fun b mem => more.reached (path b (more.mem_layout mem)) mem

theorem Structured.entryBlock (wf : g.Structured func) :
    g.entryBlock func = .ok (g.operandsOf func).head?.join := by
  rw [Graph.entryBlock, wf.consistent.operand wf.inside, head?_eq_getElem?]

/-- The blocks of a function with its derived edges are merged, and each block that is left can
be reached. -/
theorem Edged.mergeBlocks (edged : g.Edged func) (wf : g.Structured func)
    (first : (g.operandsOf func).head? = some (some entry)) :
    ∃ upd t, g.mergeBlocks func = .ok (upd, t) ∧ MergeSteps func entry (g.layout func) g t ∧
      ∀ b ∈ t.layout func, t.Reaches entry b := by
  have merging := edged.merging wf first
  obtain ⟨d, read⟩ := value_of_lt wf.inside
  obtain ⟨upd, t, done, steps⟩ := merging.mergeRounds (d.operands.length + 1)
  refine ⟨upd, t, ?_, steps, merging.mergeRounds_reached ?_ done⟩
  · unfold Graph.mergeBlocks
    rw [wf.entryBlock, first]
    refine bind_eq_ok.2 ⟨_, rfl, bind_eq_ok.2 ⟨d.operands.length, ?_, done⟩⟩
    rw [operandCount, read]
    rfl
  · intro live searched b _ old
    exact edged.reachable wf merging.entry_mem searched b old

/-- Merging ends, and the function is well formed and runs as before. -/
theorem WellFormed.mergeBlocks (wf : g.WellFormed func) : ∃ edges upd hm, g.computeEdges func = .ok edges ∧
      edges.mergeBlocks func = .ok (upd, hm) ∧
      hm.WellFormed func ∧ hm.entryBlock func = g.entryBlock func ∧
      ∀ entry, g.entryBlock func = .ok (some entry) → g.SameRuns hm entry := by
  obtain ⟨edges, computed, linked⟩ := wf.consistent.computeEdges wf.inside wf.blocks wf.targets
  have formed' := linked.sameFlow.wellFormed wf
  have edged := Linked.edged linked wf.toStructured
  have ls : edges.operandsOf func = g.operandsOf func := linked.operandsOf func
  have entries : edges.entryBlock func = g.entryBlock func := by
    rw [formed'.entryBlock, wf.entryBlock, ls]
  cases first : (g.operandsOf func).head?.join with
  | none =>
    have missing : g.entryBlock func = .ok none := by rw [wf.entryBlock, first]
    refine ⟨edges, false, edges, computed, ?_, formed', entries, ?_⟩
    · unfold Graph.mergeBlocks
      rw [entries, missing]
      rfl
    · intro entry hit
      cases missing.symm.trans hit
  | some entry =>
    have head := Option.join_eq_some_iff.1 first
    have hit : g.entryBlock func = .ok (some entry) := by rw [wf.entryBlock, first]
    obtain ⟨upd, hm, done, steps, _⟩ := edged.mergeBlocks formed'.toStructured (ls ▸ head)
    have final := steps.merging (edged.merging formed'.toStructured (ls ▸ head))
    refine ⟨edges, upd, hm, computed, done, steps.wellFormed formed', ?_, ?_⟩
    · rw [final.toStructured.entryBlock, final.first, hit]
      rfl
    · intro other isEntry
      cases hit.symm.trans isEntry
      exact (linked.sameFlow.sameRuns wf.toStructured (mem_layout.2 (mem_of_head? head))).trans steps.sameRuns

end Graph
end Midend
