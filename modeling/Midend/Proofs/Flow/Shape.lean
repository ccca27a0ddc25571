import Midend.Proofs.Module.Skeleton

/-! The shape of a lowered function, and that it stays when more is added to the graph. -/
namespace Midend.Graph
open List
variable {b i : ValueId}

def blockName? (g : Graph) (block : ValueId) : Option String :=
  match g.kind? block with
  | some (.block data) => data.name
  | _ => none

/-- The shape of a lowered function: all stack slots are in its entry, its only return is in
its exit, and every instruction is in one list only, that of the block it names as its own. -/
structure Shaped (g : Graph) (func : ValueId) : Prop where
  terminated : ∀ block ∈ g.layout func, ∃ body last, g.code block = body ++ [last] ∧
    g.isTerminator last ∧ ∀ inst ∈ body, ¬ g.isTerminator inst
  entry : ∃ entry last, (g.layout func).head? = some entry ∧ g.blockName? entry = some "entry" ∧
    (∀ block ∈ g.layout func, entry.index ≤ block.index) ∧
    (g.code entry).getLast? = some last ∧ g.opcode? last = some .jmp ∧
    ∀ block ∈ g.layout func, ∀ inst ∈ g.code block, g.opcode? inst = some .alloca → block = entry
  exit : ∃ exit ret, (g.layout func).getLast? = some exit ∧ g.blockName? exit = some "func_exit" ∧
    (g.code exit).getLast? = some ret ∧ g.opcode? ret = some .ret ∧
    (∀ block ∈ g.layout func, ∀ inst ∈ g.code block, g.opcode? inst = some .ret → inst = ret) ∧
    ∃ ty returnTy, g.ty? func = some ty ∧ ty.returnType? = some returnTy ∧
      if returnTy.isVoid then g.operandsOf ret = [] else ∃ value, g.operandsOf ret = [some value]
  parents : ∀ block ∈ g.layout func, ∀ inst ∈ g.code block,
    ∃ data, g.kind? inst = some (.inst data) ∧ data.parent = block
  homes : ∀ inst data, g.kind? inst = some (.inst data) → data.parent ∈ g.layout func →
    inst ∈ g.code data.parent
  once : ∀ block ∈ g.layout func, (g.code block).Nodup
  apart : ∀ block ∈ g.layout func, ∀ inst ∈ g.code block, ∀ other, inst ∈ g.code other → other = block

structure Extends (base g : Graph) : Prop where
  consistent : g.Consistent
  framed : base.Framed g
  within : base.Within g
  code : ∀ block inst, base.values.size ≤ block.index → inst ∈ g.code block → base.values.size ≤ inst.index
  homes : ∀ inst data, base.values.size ≤ inst.index → g.kind? inst = some (.inst data) →
    base.values.size ≤ data.parent.index
  references : ∀ user block, base.values.size ≤ user.index → block.index < base.values.size →
    g.isBlock block → some block ∈ g.operandsOf user → g.isBlock user ∨ g.isTerminator user
  conditions : ∀ branch block, base.values.size ≤ branch.index → g.isBlock block →
    g.opcode? branch = some .br → (g.operandsOf branch).head? ≠ some (some block)

def Contained (g : Graph) : Prop :=
  ∀ v kind, g.kind? v = some kind → ∀ w ∈ kind.values, w.index < g.values.size

section Framed
variable {base g : Graph} (framed : base.Framed g) {v : ValueId} (inside : v.index < base.values.size)
include framed inside

theorem Framed.code : g.code v = base.code v := by
  rw [Graph.code, framed.kind? v inside, Graph.code]

theorem Framed.opcode? : g.opcode? v = base.opcode? v := by
  rw [Graph.opcode?, framed.kind? v inside, Graph.opcode?]

theorem Framed.isTerminator : g.isTerminator v = base.isTerminator v := by
  rw [Graph.isTerminator, framed.opcode? inside, Graph.isTerminator]

theorem Framed.isBlock : g.isBlock v = base.isBlock v := by
  rw [Graph.isBlock, framed.kind? v inside, Graph.isBlock]

theorem Framed.layout : g.layout v = base.layout v := by
  rw [Graph.layout, framed.operandsOf v inside, Graph.layout]

theorem Framed.targetsOf : g.targetsOf v = base.targetsOf v := by
  rw [Graph.targetsOf, framed.opcode? inside, framed.operandsOf v inside, Graph.targetsOf]

end Framed

variable {base g : Graph} {f : ValueId}

theorem block_of_mem_code (mem : i ∈ g.code b) : ∃ d, g.kind? b = some (.block d) := by
  rw [code] at mem
  cases hit : g.kind? b with
  | none =>
    rw [hit] at mem
    cases mem
  | some k =>
    rw [hit] at mem
    cases k with
    | block d => exact ⟨d, rfl⟩
    | _ => cases mem

theorem Contained.code (contained : g.Contained) (mem : i ∈ g.code b) : i.index < g.values.size := by
  obtain ⟨d, hit⟩ := block_of_mem_code mem
  rw [code_of_kind? hit] at mem
  exact contained b _ hit i (by simp [Kind.values, mem])

theorem Contained.homes (contained : g.Contained) {d : Inst} (hit : g.kind? i = some (.inst d)) :
    d.parent.index < g.values.size :=
  contained i _ hit d.parent (mem_singleton.2 rfl)

theorem Contained.extended (contained : base.Contained) (extended : base.Extends g) : g.Contained := by
  intro v k hit w stands
  rcases Nat.lt_or_ge v.index base.values.size with old | new
  · rw [extended.framed.kind? v old] at hit
    exact Nat.lt_of_lt_of_le (contained v k hit w stands) extended.framed.size
  · exact extended.within v k new hit w stands

structure Kept (base g : Graph) (func : ValueId) : Prop where
  layout : g.layout func = base.layout func
  block : ∀ block ∈ base.layout func, block.index < base.values.size
  code : ∀ block ∈ base.layout func, g.code block = base.code block
  inst : ∀ block ∈ base.layout func, ∀ inst ∈ base.code block, inst.index < base.values.size

theorem WellFormed.kept (wf : base.WellFormed f) (framed : base.Framed g) : base.Kept g f := by
  have inside : ∀ b ∈ base.layout f, b.index < base.values.size := by
    intro b mem
    obtain ⟨d, hit⟩ := wf.blocks b mem
    exact lt_of_kind? hit
  refine ⟨framed.layout wf.inside, inside, fun b mem => framed.code (inside b mem), ?_⟩
  intro b mem i isIn
  obtain ⟨d, hit⟩ := wf.insts b mem i isIn
  exact lt_of_kind? hit

theorem Kept.exits (kept : base.Kept g f) (framed : base.Framed g) (mem : b ∈ base.layout f) :
    g.exits b = base.exits b := by
  have lasts : g.lastOf b = base.lastOf b :=
    lastOf_congr (kept.code b mem) fun i isIn => framed.opcode? (kept.inst b mem i isIn)
  rw [Graph.exits, lasts, Graph.exits]
  cases ends : base.lastOf b with
  | none => rfl
  | some last => exact framed.targetsOf (kept.inst b mem last (lastOf_mem ends).1)

/-- A function stays well formed when others are added. -/
theorem WellFormed.extended (wf : base.WellFormed f) (extended : base.Extends g) : g.WellFormed f := by
  have framed := extended.framed
  have kept := wf.kept framed
  obtain ⟨d, isFn⟩ := wf.function
  refine ⟨⟨⟨extended.consistent, ⟨d, ?_⟩, ?_, ?_, ?_, ?_, ?_⟩, ?_, ?_⟩, ?_⟩
  · rw [framed.kind? f (lt_of_kind? isFn), isFn]
  all_goals simp only [Apart, PlainConditions, Confined, kept.layout]
  · intro b mem
    rw [framed.kind? b (kept.block b mem)]
    exact wf.blocks b mem
  · exact wf.nodup
  · intro b mem i isIn
    rw [kept.code b mem] at isIn
    rw [framed.kind? i (kept.inst b mem i isIn)]
    exact wf.insts b mem i isIn
  · intro b mem
    obtain ⟨body, last, split, ends, inner⟩ := wf.terminated b mem
    have inside : ∀ i ∈ body ++ [last], i.index < base.values.size := fun i isIn =>
      kept.inst b mem i (by rwa [split])
    refine ⟨body, last, by rw [kept.code b mem, split], ?_, ?_⟩
    · rwa [framed.isTerminator (inside last (by simp))]
    · intro i isIn
      rw [framed.isTerminator (inside i (by simp [isIn]))]
      exact inner i isIn
  · intro b mem dest goes
    exact wf.targets b mem dest (kept.exits framed mem ▸ goes)
  · intro b mem w member' i isIn listed'
    rw [kept.code b mem] at isIn
    rw [kept.code w member'] at listed'
    exact wf.apart b mem w member' i isIn listed'
  · intro branch b mem isBranch
    rcases Nat.lt_or_ge branch.index base.values.size with old | new
    · rw [framed.opcode? old] at isBranch
      rw [framed.operandsOf branch old]
      exact wf.conditions branch b mem isBranch
    · refine extended.conditions branch b new ?_ isBranch
      rw [framed.isBlock (kept.block b mem)]
      exact wf.isBlock mem
  · intro user b mem held
    rcases Nat.lt_or_ge user.index base.values.size with old | new
    · rw [framed.operandsOf user old] at held
      rw [framed.isBlock old, framed.isTerminator old]
      exact wf.references user b mem held
    · refine .inr (extended.references user b new (kept.block b mem) ?_ held)
      rw [framed.isBlock (kept.block b mem)]
      exact wf.isBlock mem

theorem Framed.blockName? (framed : base.Framed g) (inside : b.index < base.values.size) :
    g.blockName? b = base.blockName? b := by
  rw [Graph.blockName?, framed.kind? b inside, Graph.blockName?]

theorem Shaped.extended (shaped : base.Shaped f) (wf : base.WellFormed f)
    (extended : base.Extends g) : g.Shaped f := by
  have framed := extended.framed
  have kept := wf.kept framed
  have formed' := wf.extended extended
  refine ⟨formed'.terminated, ?_, ?_, ?_, ?_, ?_, ?_⟩
  all_goals rw [kept.layout]
  · obtain ⟨entry, last, isHead, n, first, isLast, isJump, ls⟩ := shaped.entry
    have mem := mem_of_mem_head? isHead
    refine ⟨entry, last, isHead, ?_, first, ?_, ?_, ?_⟩
    · rw [framed.blockName? (kept.block entry mem), n]
    · rw [kept.code entry mem, isLast]
    · rw [framed.opcode? (kept.inst entry mem last (mem_of_getLast? isLast)), isJump]
    · intro b member' i isIn isSlot
      rw [kept.code b member'] at isIn
      rw [framed.opcode? (kept.inst b member' i isIn)] at isSlot
      exact ls b member' i isIn isSlot
  · obtain ⟨exit, ret, isFinal, n, isLast, isReturn, only, ty, returnTy, isTy, returns, arg⟩ :=
      shaped.exit
    have mem := mem_of_getLast? isFinal
    have inside := kept.inst exit mem ret (mem_of_getLast? isLast)
    refine ⟨exit, ret, isFinal, ?_, ?_, ?_, ?_, ty, returnTy, ?_, returns, ?_⟩
    · rw [framed.blockName? (kept.block exit mem), n]
    · rw [kept.code exit mem, isLast]
    · rw [framed.opcode? inside, isReturn]
    · intro b member' i isIn isRet
      rw [kept.code b member'] at isIn
      rw [framed.opcode? (kept.inst b member' i isIn)] at isRet
      exact only b member' i isIn isRet
    · rw [framed.ty? f wf.inside, isTy]
    · rw [framed.operandsOf ret inside]
      exact arg
  · intro b mem i isIn
    rw [kept.code b mem] at isIn
    rw [framed.kind? i (kept.inst b mem i isIn)]
    exact shaped.parents b mem i isIn
  · intro i d hit home
    rw [kept.code d.parent home]
    rcases Nat.lt_or_ge i.index base.values.size with old | new
    · rw [framed.kind? i old] at hit
      exact shaped.homes i d hit home
    · exact absurd (kept.block d.parent home) (Nat.not_lt_of_le (extended.homes i d new hit))
  · intro b mem
    rw [kept.code b mem]
    exact shaped.once b mem
  · intro b mem i isIn other listed'
    rw [kept.code b mem] at isIn
    rcases Nat.lt_or_ge other.index base.values.size with old | new
    · rw [framed.code old] at listed'
      exact shaped.apart b mem i isIn other listed'
    · exact absurd (kept.inst b mem i isIn) (Nat.not_lt_of_le (extended.code other i new listed'))

def Passable (g : Graph) (func : ValueId) : Prop :=
  ∃ entry exit, (g.layout func).head? = some entry ∧ (g.layout func).getLast? = some exit ∧ g.Reaches entry exit

theorem Passable.framed (passable : base.Passable f) (wf : base.WellFormed f) (framed : base.Framed g) :
    g.Passable f := by
  have kept := wf.kept framed
  obtain ⟨entry, exit, first, last, path⟩ := passable
  refine ⟨entry, exit, by rw [kept.layout, first], by rw [kept.layout, last], ?_⟩
  exact (reaches_congr wf.toStructured (mem_of_mem_head? first) fun b => kept.exits framed).2 path

namespace Skeleton
variable {entry : ValueId}

theorem extension (skel : base.Skeleton g f entry) : base.Extends g where
  consistent := skel.consistent
  framed := skel.framed
  within := skel.within
  code b i above isIn := (skel.coded.listed b i above isIn).1
  homes i d above hit := (skel.coded.homes i d above hit).1
  references user b above old isBlock held := by
    rcases skel.wired.references user b above isBlock held with rfl | rest
    · rw [skel.laid.slots] at held
      obtain ⟨_, mem, eq⟩ := mem_map.1 held
      cases eq
      exact absurd old (Nat.not_lt_of_le ((skel.laid.blocks b).1 mem).1)
    · exact rest
  conditions branch b above isBlock isBranch :=
    skel.wired.conditions branch b above isBlock isBranch

private theorem not_old (skel : base.Skeleton g f entry) (ok : base.Consistent) {user : ValueId}
    (mem : b ∈ g.layout f) (held : some b ∈ g.operandsOf user) :
    base.values.size ≤ user.index := by
  rcases Nat.lt_or_ge user.index base.values.size with old | new
  · rw [skel.framed.operandsOf user old] at held
    exact absurd (ok.operand_lt held) (Nat.not_lt_of_le ((skel.laid.blocks b).1 mem).1)
  · exact new

theorem wellFormed (skel : base.Skeleton g f entry) (ok : base.Consistent)
    (ended : ∀ b ∈ g.layout f, ∃ last, g.lastOf b = some last) : g.WellFormed f := by
  have above : ∀ b ∈ g.layout f, base.values.size ≤ b.index := fun b mem =>
    ((skel.laid.blocks b).1 mem).1
  refine ⟨⟨⟨skel.consistent, skel.laid.function, fun b mem => skel.block_of_mem mem,
    skel.laid.nodup, ?_, ?_, ?_⟩, ?_, ?_⟩, ?_⟩
  · intro b mem i isIn
    obtain ⟨_, d, hit, _⟩ := skel.coded.listed b i (above b mem) isIn
    exact ⟨d, hit⟩
  · intro b mem
    obtain ⟨last, isLast⟩ := ended b mem
    obtain ⟨hit, ends⟩ := Option.filter_eq_some_iff.1 isLast
    obtain ⟨body, cs⟩ := getLast?_eq_some_iff.1 hit
    refine ⟨body, last, cs, ends, ?_⟩
    have inner := skel.coded.ends b (above b mem)
    rwa [cs, dropLast_concat] at inner
  · intro b mem dest goes
    obtain ⟨last, isLast⟩ := ended b mem
    rw [Structured.exits_of_lastOf isLast] at goes
    have isIn := skel.coded.listed b last (above b mem) (lastOf_mem isLast).1
    exact skel.wired.targets last isIn.1 dest goes
  · intro b mem w member' i isIn listed'
    obtain ⟨_, d, hit, rfl⟩ := skel.coded.listed b i (above b mem) isIn
    obtain ⟨_, data', found', rfl⟩ := skel.coded.listed w i (above w member') listed'
    cases hit.symm.trans found'
    rfl
  · intro branch b mem isBranch head
    exact skel.wired.conditions branch b (skel.not_old ok mem (mem_of_mem_head? head))
      ((skel.laid.blocks b).1 mem).2 isBranch head
  · intro user b mem held
    exact skel.wired.references user b (skel.not_old ok mem held)
      ((skel.laid.blocks b).1 mem).2 held

end Skeleton
end Midend.Graph
