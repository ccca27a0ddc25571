import Midend.Proofs.Flow.Edges

/-! Functions whose control flow is well formed, and where an execution of such a function
can be. -/
namespace Midend.Graph
open Option
open List
variable {b f entry i dest : ValueId} {g t : Graph} {choices left : Nat → Bool}
  {next tl : List ValueId}

structure Arranged (g : Graph) (func : ValueId) : Prop where
  consistent : g.Consistent
  function : ∃ data, g.kind? func = some (.function data)
  blocks : ∀ block ∈ g.layout func, ∃ data, g.kind? block = some (.block data)
  nodup : (g.layout func).Nodup
  insts : ∀ block ∈ g.layout func, ∀ inst ∈ g.code block, ∃ data, g.kind? inst = some (.inst data)
  terminated : ∀ block ∈ g.layout func, ∃ body last, g.code block = body ++ [last] ∧
    g.isTerminator last ∧ ∀ inst ∈ body, ¬ g.isTerminator inst
  targets : ∀ block ∈ g.layout func, ∀ target ∈ g.exits block, target ∈ g.layout func

/-- No instruction stands in two blocks. -/
def Apart (g : Graph) (func : ValueId) : Prop :=
  ∀ block ∈ g.layout func, ∀ other ∈ g.layout func, ∀ inst, inst ∈ g.code block → inst ∈ g.code other → block = other

/-- No branch has a block as its condition. -/
def PlainConditions (g : Graph) (func : ValueId) : Prop :=
  ∀ branch, ∀ block ∈ g.layout func, g.opcode? branch = some .br → (g.operandsOf branch).head? ≠ some (some block)

/-- Merging blocks relies on two conditions more, since to remove a block is to remove its instructions and every slot
that refers to it. Without either of them a merged function runs differently. -/
structure Structured (g : Graph) (func : ValueId) : Prop extends g.Arranged func where
  apart : g.Apart func
  conditions : g.PlainConditions func

def Confined (g : Graph) (func : ValueId) : Prop :=
  ∀ user, ∀ block ∈ g.layout func, some block ∈ g.operandsOf user → user = func ∨ g.isBlock user ∨ g.isTerminator user

structure WellFormed (g : Graph) (func : ValueId) : Prop extends g.Structured func where
  references : g.Confined func

inductive Reaches (g : Graph) (entry : ValueId) : ValueId → Prop where
  | start : Reaches g entry entry
  | next {block target : ValueId} : Reaches g entry block → target ∈ g.exits block →
    Reaches g entry target

def Running (g : Graph) (entry : ValueId) (rest : List ValueId) : Prop :=
  ∃ block, g.Reaches entry block ∧ rest <:+ g.code block

theorem mem_layout : b ∈ g.layout f ↔ some b ∈ g.operandsOf f := by
  simp [layout]

namespace Structured
variable {g : Graph} {f : ValueId}
variable {b i : ValueId} {tail : List ValueId}

section
variable (formed : g.Structured f)
include formed

theorem inside : f.index < g.values.size :=
  lt_of_kind? formed.function.choose_spec

theorem isBlock (mem : b ∈ g.layout f) : g.isBlock b := by
  obtain ⟨d, hit⟩ := formed.blocks b mem
  rw [Graph.isBlock, hit]
  rfl

theorem block_ne_func (mem : b ∈ g.layout f) : b ≠ f := by
  obtain ⟨d, hb⟩ := formed.blocks b mem
  obtain ⟨other, isFn⟩ := formed.function
  intro same
  rw [same, isFn] at hb
  cases hb

theorem inst_ne_func (mem : b ∈ g.layout f) (isIn : i ∈ g.code b) : i ≠ f := by
  obtain ⟨d, isInst⟩ := formed.insts b mem i isIn
  obtain ⟨other, isFn⟩ := formed.function
  intro same
  rw [same, isFn] at isInst
  cases isInst

theorem inst_ne_block {other : ValueId} (mem : b ∈ g.layout f)
    (isIn : i ∈ g.code b) (hb : other ∈ g.layout f) : i ≠ other := by
  obtain ⟨d, isInst⟩ := formed.insts b mem i isIn
  obtain ⟨data', hit⟩ := formed.blocks other hb
  intro same
  rw [same, hit] at isInst
  cases isInst

private theorem opcode?_func : g.opcode? f = none := by
  obtain ⟨d, hit⟩ := formed.function
  simp [Graph.opcode?, hit, Kind.opcode?]

theorem nil_of_terminator (mem : b ∈ g.layout f)
    (suffix : i :: tail <:+ g.code b) (last : g.isTerminator i) : tail = [] ∧ g.lastOf b = some i := by
  obtain ⟨body, final, cs, _, inner⟩ := formed.terminated b mem
  obtain ⟨front, split⟩ := suffix
  rw [cs] at split
  rcases eq_nil_or_concat tail with rfl | ⟨front', x, rfl⟩
  · refine ⟨rfl, ?_⟩
    obtain ⟨_, same⟩ := append_inj' split rfl
    cases same
    rw [lastOf, cs, getLast?_concat, filter_some, if_pos last]
  · rw [concat_eq_append, ← cons_append, ← append_assoc] at split
    obtain ⟨rfl, _⟩ := append_inj' split rfl
    exact absurd last (inner i (by simp))

theorem cons_of_not_terminator (mem : b ∈ g.layout f)
    (suffix : i :: tail <:+ g.code b) (inner : ¬ g.isTerminator i) : tail ≠ [] := by
  rintro rfl
  obtain ⟨body, final, cs, last, _⟩ := formed.terminated b mem
  obtain ⟨front, split⟩ := suffix
  rw [cs] at split
  obtain ⟨_, same⟩ := append_inj' split rfl
  cases same
  exact inner last

theorem lastOf_isSome (mem : b ∈ g.layout f) :
    ∃ last, g.lastOf b = some last ∧ last ∈ g.code b ∧ g.isTerminator last := by
  obtain ⟨body, last, cs, ends, _⟩ := formed.terminated b mem
  exact ⟨last, by rw [lastOf, cs, getLast?_concat, filter_some, if_pos ends], by simp [cs], ends⟩

end

theorem exits_of_lastOf {last : ValueId} (ends : g.lastOf b = some last) : g.exits b = g.targetsOf last := by
  rw [exits, ends]

end Structured

theorem Reaches.mem_layout (formed : g.Structured f) (s0 : entry ∈ g.layout f)
    (path : g.Reaches entry b) : b ∈ g.layout f := by
  induction path with
  | start => exact s0
  | next _ mem ih => exact formed.targets _ ih _ mem

theorem reaches_congr (formed : g.Structured f) (s0 : entry ∈ g.layout f)
    (same : ∀ b ∈ g.layout f, t.exits b = g.exits b) :
    t.Reaches entry b ↔ g.Reaches entry b := by
  constructor
  · intro path
    have both : g.Reaches entry b ∧ b ∈ g.layout f := by
      induction path with
      | start => exact ⟨.start, s0⟩
      | next _ goes ih =>
        rw [same _ ih.2] at goes
        exact ⟨ih.1.next goes, formed.targets _ ih.2 _ goes⟩
    exact both.1
  · intro path
    induction path with
    | start => exact .start
    | next pre goes ih => exact ih.next (by rwa [same _ (pre.mem_layout formed s0)])

theorem isTerminator_of_opcode? {op : Opcode} (hit : g.opcode? i = some op) :
    g.isTerminator i = op.isTerminator := by
  rw [Graph.isTerminator, hit]
  rfl

theorem isTerminator_of_mem_targetsOf (goes : dest ∈ g.targetsOf i) : g.isTerminator i := by
  cases hit : g.opcode? i with
  | none => simp [targetsOf, hit] at goes
  | some op =>
    rw [isTerminator_of_opcode? hit]
    cases op with
    | jmp => rfl
    | br => rfl
    | _ => simp [targetsOf, hit] at goes

theorem lastOf_mem {last : ValueId} (ends : g.lastOf b = some last) : last ∈ g.code b ∧ g.isTerminator last :=
  ⟨mem_of_getLast? (filter_eq_some_iff.1 ends).1, (filter_eq_some_iff.1 ends).2⟩

theorem lastOf_congr (cs : t.code b = g.code b)
    (same : ∀ v ∈ g.code b, t.opcode? v = g.opcode? v) : t.lastOf b = g.lastOf b := by
  rw [lastOf, cs, lastOf]
  cases ends : (g.code b).getLast? with
  | none => rfl
  | some last =>
    rw [filter_some, filter_some, isTerminator, same last (mem_of_getLast? ends), isTerminator]

theorem Running.next? {tail : List ValueId} (formed : g.Structured f) (s0 : entry ∈ g.layout f)
    (running : g.Running entry (i :: tail)) {choice : Bool} (taken : g.next? i choice = some dest) :
    g.Reaches entry dest := by
  obtain ⟨b, path, suffix⟩ := running
  have goes := formed.consistent.next?_mem taken
  have ends := (formed.nil_of_terminator (path.mem_layout formed s0) suffix
    (isTerminator_of_mem_targetsOf goes)).2
  exact path.next (Structured.exits_of_lastOf ends ▸ goes)

theorem Running.of_reaches (path : g.Reaches entry b) : g.Running entry (g.code b) :=
  ⟨b, path, suffix_rfl⟩

/-- What is left of a block stays so along a step. -/
theorem Running.step {i : Option ValueId} (formed : g.Structured f) (s0 : entry ∈ g.layout f)
    (running : g.Running entry tl) (taken : g.step choices tl = some (i, left, next)) : g.Running entry next := by
  have finished : g.Running entry [] := ⟨entry, .start, nil_suffix⟩
  cases tl with
  | nil => cases taken
  | cons head tail =>
    rw [Graph.step] at taken
    split at taken
    · obtain ⟨b, goes, same⟩ := map_eq_some_iff.1 taken
      cases same
      exact .of_reaches (running.next? formed s0 goes)
    · cases goes : g.next? head (choices 0) with
      | none => simp_all
      | some b =>
        rw [goes] at taken
        cases taken
        exact .of_reaches (running.next? formed s0 goes)
    · cases taken
      exact finished
    · cases taken
      obtain ⟨b, path, suffix⟩ := running
      exact ⟨b, path, (suffix_cons _ _).trans suffix⟩

theorem head_of_step (taken : g.step choices tl = some (some i, left, next)) : ∃ tail, tl = i :: tail := by
  cases tl with
  | nil => cases taken
  | cons head tail =>
    rw [Graph.step] at taken
    split at taken
    · obtain ⟨b, _, same⟩ := map_eq_some_iff.1 taken
      cases same
    · cases taken
      exact ⟨_, rfl⟩
    · cases taken
      exact ⟨_, rfl⟩
    · cases taken
      exact ⟨_, rfl⟩

private theorem opcode?_of_executed {steps : Nat} (formed : g.Structured f) (s0 : entry ∈ g.layout f)
    (ran : i ∈ g.executed steps choices (g.code entry)) : ∃ op, g.opcode? i = some op := by
  refine forall_executed (P := fun v => ∃ op, g.opcode? v = some op) ?_ steps choices
    (Running.of_reaches .start) i ran
  intro choices tl i left next running taken
  refine ⟨running.step formed s0 taken, ?_⟩
  rintro v rfl
  obtain ⟨tail, rfl⟩ := head_of_step taken
  obtain ⟨b, path, suffix⟩ := running
  obtain ⟨d, hit⟩ := formed.insts b (path.mem_layout formed s0) v (suffix.subset (mem_cons_self ..))
  exact ⟨d.opcode, opcode?_eq hit⟩

/-- Two graphs take corresponding steps from corresponding places if they agree on the next
instruction and on where it leads. -/
theorem step_eq_map {g t : Graph} {place : List ValueId → List ValueId} (nil : place [] = [])
    {i : ValueId} {tail : List ValueId} (opcode : t.opcode? i = g.opcode? i)
    (next : ∀ choice, t.next? i choice = g.next? i choice)
    (cs : ∀ choice b, g.next? i choice = some b → t.code b = place (g.code b))
    (inner : ¬ g.isTerminator i → place (i :: tail) = i :: place tail)
    (last : g.isTerminator i → ∃ more, place (i :: tail) = i :: more) (choices : Nat → Bool) :
    t.step choices (place (i :: tail)) =
      (g.step choices (i :: tail)).map fun res => (res.1, res.2.1, place res.2.2) := by
  by_cases ends : g.isTerminator i
  · obtain ⟨more, there⟩ := last ends
    obtain ⟨op, hit, terminates⟩ := opcode?_of_isTerminator ends
    rw [there, Graph.step, Graph.step, opcode, hit]
    cases op with
    | jmp =>
      cases goes : g.next? i true with
      | none => simp [next, goes]
      | some b => simp [next, goes, cs true b goes]
    | br =>
      cases goes : g.next? i (choices 0) with
      | none => simp [next, goes, nil]
      | some b => simp [next, goes, cs _ b goes]
    | ret => simp [nil]
    | _ => cases terminates
  · rw [inner ends, Graph.step, Graph.step, opcode]
    cases hit : g.opcode? i with
    | none => rfl
    | some op =>
      rw [isTerminator_of_opcode? hit] at ends
      cases op with
      | jmp => exact absurd rfl ends
      | br => exact absurd rfl ends
      | ret => exact absurd rfl ends
      | _ => rfl

structure SameFlow (g after : Graph) (func : ValueId) : Prop where
  consistent : after.Consistent
  kinds : ∀ v, ∃ edit : Block → Block, after.kind? v = (g.kind? v).map (Kind.edit edit id)
  code : ∀ v, after.code v = g.code v
  ty? : ∀ v, after.ty? v = g.ty? v
  operandsOf : ∀ v, v ≠ func → after.operandsOf v = g.operandsOf v
  layout : after.layout func = g.layout func

theorem Edited.sameFlow {bs : ValueId → Block → Block}
    {refs : ValueId → List (Option ValueId) → List (Option ValueId)}
    (edited : g.Edited t bs (fun _ i => i) refs) (insts : ∀ v d, (bs v d).insts = d.insts)
    (others : ∀ v, v ≠ f → refs v (g.operandsOf v) = g.operandsOf v) (layout : t.layout f = g.layout f) :
    g.SameFlow t f :=
  ⟨edited.consistent, fun v => ⟨bs v, edited.kind? v⟩, fun v => edited.code_eq fun d _ => insts v d,
    edited.ty?, fun v ne => (edited.operandsOf v).trans (others v ne), layout⟩

namespace SameFlow
variable {g t : Graph} {f : ValueId}

section
variable (same : g.SameFlow t f)
include same

theorem opcode? (v : ValueId) : t.opcode? v = g.opcode? v := by
  obtain ⟨edit, kinds⟩ := same.kinds v
  rw [Graph.opcode?, kinds, Graph.opcode?]
  cases g.kind? v with
  | none => rfl
  | some k => cases k <;> rfl

theorem attr? (v : ValueId) : t.attr? v = g.attr? v := by
  obtain ⟨edit, kinds⟩ := same.kinds v
  rw [Graph.attr?, kinds, Graph.attr?]
  cases g.kind? v with
  | none => rfl
  | some k => cases k <;> rfl

theorem isBlock (v : ValueId) : t.isBlock v = g.isBlock v := by
  obtain ⟨edit, kinds⟩ := same.kinds v
  rw [Graph.isBlock, kinds, Graph.isBlock]
  cases g.kind? v with
  | none => rfl
  | some k => cases k <;> rfl

theorem isTerminator (v : ValueId) : t.isTerminator v = g.isTerminator v := by
  rw [Graph.isTerminator, same.opcode? v, Graph.isTerminator]

theorem targetsOf (formed : g.Structured f) (v : ValueId) : t.targetsOf v = g.targetsOf v := by
  by_cases isFunc : v = f
  · have notInst := formed.opcode?_func
    rw [Graph.targetsOf, same.opcode?, Graph.targetsOf, isFunc, notInst]
  · rw [Graph.targetsOf, same.opcode?, same.operandsOf v isFunc, Graph.targetsOf]

theorem exits (formed : g.Structured f) (v : ValueId) : t.exits v = g.exits v := by
  have ends : t.isTerminator = g.isTerminator := funext same.isTerminator
  simp only [Graph.exits, lastOf, same.code, ends, same.targetsOf formed]

theorem reaches (formed : g.Structured f) (s0 : entry ∈ g.layout f) :
    t.Reaches entry b ↔ g.Reaches entry b :=
  reaches_congr formed s0 fun b _ => same.exits formed b

theorem structured (formed : g.Structured f) : t.Structured f := by
  refine ⟨⟨same.consistent, ?_, ?_, ?_, ?_, ?_, ?_⟩, ?_, ?_⟩
  · obtain ⟨d, hit⟩ := formed.function
    obtain ⟨edit, kinds⟩ := same.kinds f
    exact ⟨d, by rw [kinds, hit]; rfl⟩
  · intro b isIn
    obtain ⟨d, hit⟩ := formed.blocks b (same.layout ▸ isIn)
    obtain ⟨edit, kinds⟩ := same.kinds b
    exact ⟨edit d, by rw [kinds, hit]; rfl⟩
  · simpa only [same.layout] using formed.nodup
  · intro b isIn i mem
    obtain ⟨d, hit⟩ := formed.insts b (same.layout ▸ isIn) i (same.code b ▸ mem)
    obtain ⟨edit, kinds⟩ := same.kinds i
    exact ⟨d, by rw [kinds, hit]; rfl⟩
  · simpa only [same.layout, same.code, same.isTerminator] using formed.terminated
  · simpa only [same.layout, same.exits formed] using formed.targets
  · simpa only [Apart, same.layout, same.code] using formed.apart
  · intro branch b isIn isBranch
    rw [same.layout] at isIn
    rw [same.opcode?] at isBranch
    have ne : branch ≠ f := by
      rintro rfl
      cases formed.opcode?_func.symm.trans isBranch
    rw [same.operandsOf branch ne]
    exact formed.conditions branch b isIn isBranch

theorem wellFormed (formed : g.WellFormed f) : t.WellFormed f := by
  refine ⟨same.structured formed.toStructured, ?_⟩
  intro user b isIn mem
  rw [same.layout] at isIn
  rw [same.isBlock, same.isTerminator]
  by_cases isFunc : user = f
  · exact .inl isFunc
  · exact formed.references user b isIn (same.operandsOf user isFunc ▸ mem)

theorem executed (formed : g.Structured f) (steps : Nat) (choices : Nat → Bool) (tl : List ValueId) :
    t.executed steps choices tl = g.executed steps choices tl := by
  have next : t.next? = g.next? := by
    funext i choice
    rw [same.consistent.next?, formed.consistent.next?, same.opcode?, same.targetsOf formed]
  have cs : t.code = g.code := funext same.code
  have step : t.step = g.step := by
    funext choices tl
    cases tl with
    | nil => rfl
    | cons i tail => simp only [Graph.step, same.opcode?, next, cs]
  induction steps generalizing choices tl with
  | zero => rfl
  | succ steps ih => simp only [Graph.executed, step, ih]

theorem sameRuns (formed : g.Structured f) (s0 : entry ∈ g.layout f) : g.SameRuns t entry := by
  refine ⟨?_, ?_⟩
  · intro choices pos i
    simp only [Executes, same.executed formed, same.code]
  · rintro choices pos i ⟨steps, hit⟩
    obtain ⟨op, isInst⟩ := opcode?_of_executed formed s0 (mem_of_getElem? hit)
    have ne : i ≠ f := by
      rintro rfl
      cases formed.opcode?_func.symm.trans isInst
    have bs : t.isBlock = g.isBlock := funext same.isBlock
    refine ⟨same.opcode? i, same.ty? i, same.attr? i, ?_⟩
    rw [dataOperands, same.operandsOf i ne, bs, dataOperands]

end

end SameFlow

end Midend.Graph
