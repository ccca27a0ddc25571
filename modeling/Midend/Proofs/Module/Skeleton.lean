import Midend.Proofs.Module.Grows

/-! The graph of a function that is being built, on top of a graph that stays as it is. Every
step of the builder keeps its order: instructions stand in the block they name as theirs,
terminators at ends, stack slots in the entry, and only terminators lead to blocks. -/
namespace Midend
open List
variable {k : Kind}

def Kind.values : Kind → List ValueId
  | .function func => func.args
  | .block data => data.parent :: (data.insts ++ data.preds ++ data.succs)
  | .inst data => [data.parent]
  | _ => []

theorem Kind.isBlock_of_values (free : k.values = []) : k.isBlock = false := by
  cases k with
  | block d => cases free
  | _ => rfl

theorem Kind.isInst_of_values (free : k.values = []) : k.isInst = false := by
  cases k with
  | inst d => cases free
  | _ => rfl

namespace Graph
variable {b : ValueId}

structure Framed (base g : Graph) : Prop where
  size : base.values.size ≤ g.values.size
  kind? : ∀ v, v.index < base.values.size → g.kind? v = base.kind? v
  ty? : ∀ v, v.index < base.values.size → g.ty? v = base.ty? v
  operandsOf : ∀ v, v.index < base.values.size → g.operandsOf v = base.operandsOf v

structure Coded (base g : Graph) (entry : ValueId) : Prop where
  listed : ∀ block inst, base.values.size ≤ block.index → inst ∈ g.code block →
    base.values.size ≤ inst.index ∧ ∃ data, g.kind? inst = some (.inst data) ∧ data.parent = block
  homes : ∀ inst data, base.values.size ≤ inst.index → g.kind? inst = some (.inst data) →
    base.values.size ≤ data.parent.index ∧ inst ∈ g.code data.parent
  once : ∀ block, base.values.size ≤ block.index → (g.code block).Nodup
  ends : ∀ block, base.values.size ≤ block.index → ∀ inst ∈ (g.code block).dropLast,
    ¬ g.isTerminator inst
  slotsIn : ∀ inst data, base.values.size ≤ inst.index → g.kind? inst = some (.inst data) →
    data.opcode = .alloca → data.parent = entry

structure Laid (base g : Graph) (func entry : ValueId) : Prop where
  function : ∃ data, g.kind? func = some (.function data)
  above : base.values.size ≤ func.index
  slots : g.operandsOf func = (g.layout func).map some
  nodup : (g.layout func).Nodup
  head : (g.layout func).head? = some entry
  blocks : ∀ block, block ∈ g.layout func ↔ base.values.size ≤ block.index ∧ g.isBlock block

structure Wired (base g : Graph) (func : ValueId) : Prop where
  targets : ∀ inst, base.values.size ≤ inst.index → ∀ target ∈ g.targetsOf inst,
    target ∈ g.layout func
  references : ∀ user block, base.values.size ≤ user.index → g.isBlock block →
    some block ∈ g.operandsOf user → user = func ∨ g.isBlock user ∨ g.isTerminator user
  conditions : ∀ branch block, base.values.size ≤ branch.index → g.isBlock block →
    g.opcode? branch = some .br → (g.operandsOf branch).head? ≠ some (some block)

def Within (base g : Graph) : Prop :=
  ∀ v kind, base.values.size ≤ v.index → g.kind? v = some kind → ∀ w ∈ kind.values, w.index < g.values.size

structure Skeleton (base g : Graph) (func entry : ValueId) : Prop where
  consistent : g.Consistent
  framed : base.Framed g
  coded : base.Coded g entry
  laid : base.Laid g func entry
  wired : base.Wired g func
  within : base.Within g

variable {base g t : Graph} {fn entry : ValueId}

theorem Framed.refl (g : Graph) : g.Framed g :=
  ⟨Nat.le_refl _, fun _ _ => rfl, fun _ _ => rfl, fun _ _ => rfl⟩

theorem Framed.trans {mid : Graph} (first : g.Framed mid) (second : mid.Framed t) : g.Framed t := by
  have into : ∀ v : ValueId, v.index < g.values.size → v.index < mid.values.size :=
    fun v lt => Nat.lt_of_lt_of_le lt first.size
  refine ⟨Nat.le_trans first.size second.size, ?_, ?_, ?_⟩
  · intro v lt
    rw [second.kind? v (into v lt), first.kind? v lt]
  · intro v lt
    rw [second.ty? v (into v lt), first.ty? v lt]
  · intro v lt
    rw [second.operandsOf v (into v lt), first.operandsOf v lt]

def SameInsts (g after : Graph) : Prop :=
  ∀ v data, after.kind? v = some (.inst data) ↔ g.kind? v = some (.inst data)

theorem SameInsts.opcode? (eq : g.SameInsts t) (v : ValueId) : t.opcode? v = g.opcode? v := by
  have forward : ∀ {g t : Graph}, g.SameInsts t → ∀ op, g.opcode? v = some op → t.opcode? v = some op := by
    intro g t eq op hit
    obtain ⟨d, read, rfl⟩ := inst_of_opcode? hit
    exact opcode?_eq ((eq v d).2 read)
  exact Option.ext fun op => ⟨forward (fun v d => (eq v d).symm) op, forward eq op⟩

theorem SameInsts.isTerminator (eq : g.SameInsts t) (v : ValueId) : t.isTerminator v = g.isTerminator v := by
  rw [Graph.isTerminator, eq.opcode? v, Graph.isTerminator]

theorem SameInsts.targetsOf (eq : g.SameInsts t)
    (operands : ∀ v d, g.kind? v = some (.inst d) → t.operandsOf v = g.operandsOf v)
    (v : ValueId) : t.targetsOf v = g.targetsOf v := by
  rw [Graph.targetsOf, eq.opcode? v, Graph.targetsOf]
  cases hit : g.opcode? v with
  | none => rfl
  | some op =>
    obtain ⟨d, read, _⟩ := inst_of_opcode? hit
    rw [operands v d read]

theorem Coded.congr (coded : base.Coded g entry) (cs : ∀ v, t.code v = g.code v)
    (eq : g.SameInsts t) : base.Coded t entry := by
  refine ⟨?_, ?_, ?_, ?_, ?_⟩
  · intro b i above mem
    rw [cs] at mem
    obtain ⟨new, d, hit, parent⟩ := coded.listed b i above mem
    exact ⟨new, d, (eq i d).2 hit, parent⟩
  · intro i d above hit
    rw [cs]
    exact coded.homes i d above ((eq i d).1 hit)
  · intro b above
    rw [cs]
    exact coded.once b above
  · intro b above i mem
    rw [cs] at mem
    rw [eq.isTerminator]
    exact coded.ends b above i mem
  · intro i d above hit
    exact coded.slotsIn i d above ((eq i d).1 hit)

theorem Coded.opened (coded : base.Coded g entry) (above : base.values.size ≤ b.index)
    (ho : g.lastOf b = none) : ∀ v ∈ g.code b, ¬ g.isTerminator v := by
  intro v mem
  rcases eq_nil_or_concat (g.code b) with empty | ⟨front, last, cs⟩
  · rw [empty] at mem
    cases mem
  · have inner := coded.ends b above v
    rw [concat_eq_append] at cs
    rw [lastOf, cs, getLast?_concat] at ho
    rw [cs, dropLast_concat] at inner
    rw [cs, mem_append, mem_singleton] at mem
    rcases mem with early | rfl
    · exact inner early
    · intro ends
      rw [Option.filter_some, if_pos ends] at ho
      cases ho

theorem Within.blockAdded {n : Option String} (within : base.Within g)
    (added : Builder.BlockAdded g t b fn n) (into : fn.index < g.values.size) : base.Within t := by
  intro v k above hit w stands
  rw [added.kind? v] at hit
  rw [added.size]
  split at hit
  next =>
    cases hit
    obtain rfl : w = fn := by simpa [Kind.values] using stands
    exact Nat.lt_succ_of_lt into
  next => exact Nat.lt_succ_of_lt (within v k above hit w stands)

namespace Skeleton
variable {b : ValueId} {n : Option String}

section
variable (skeleton : base.Skeleton g fn entry)
include skeleton

theorem func_ne {v : ValueId} {d : Inst} (hit : g.kind? v = some (.inst d)) : v ≠ fn := by
  rintro rfl
  obtain ⟨f, isFn⟩ := skeleton.laid.function
  cases isFn.symm.trans hit

theorem isBlock_func : g.isBlock fn = false := by
  obtain ⟨f, isFn⟩ := skeleton.laid.function
  rw [Graph.isBlock, isFn]
  rfl

theorem block_of_mem (mem : b ∈ g.layout fn) : ∃ d, g.kind? b = some (.block d) :=
  block_of_isBlock ((skeleton.laid.blocks b).1 mem).2

theorem entry_mem : entry ∈ g.layout fn :=
  mem_of_mem_head? skeleton.laid.head

theorem congr (consistent : t.Consistent)
    (framed : base.Framed t) (cs : ∀ v, t.code v = g.code v) (eq : g.SameInsts t)
    (kept : ∀ v, v ≠ fn → g.isBlock v = false → t.operandsOf v = g.operandsOf v)
    (bs : ∀ v, v.index < g.values.size → t.isBlock v = g.isBlock v) (laid : base.Laid t fn entry)
    (layout : ∀ b ∈ g.layout fn, b ∈ t.layout fn) (within : base.Within t) :
    base.Skeleton t fn entry := by
  have operands : ∀ v d, g.kind? v = some (.inst d) → t.operandsOf v = g.operandsOf v :=
    fun v d hit => kept v (skeleton.func_ne hit) (by rw [Graph.isBlock, hit]; rfl)
  have older : ∀ user b, t.isBlock b → some b ∈ g.operandsOf user → g.isBlock b := by
    intro user b hb mem
    rwa [← bs b (skeleton.consistent.operand_lt mem)]
  refine ⟨consistent, framed, skeleton.coded.congr cs eq, laid, ⟨?_, ?_, ?_⟩, within⟩
  · intro i above dest goes
    rw [eq.targetsOf operands] at goes
    exact layout dest (skeleton.wired.targets i above dest goes)
  · intro user b above hb mem
    by_cases isFunc : user = fn
    · exact .inl isFunc
    cases users : g.isBlock user with
    | true => exact .inr (.inl (by rwa [bs user (lt_of_isBlock users)]))
    | false =>
      rw [kept user isFunc users] at mem
      rw [eq.isTerminator]
      rcases skeleton.wired.references user b above (older user b hb mem) mem with
        isFunc' | isBlock' | ends
      · exact .inl isFunc'
      · rw [users] at isBlock'
        cases isBlock'
      · exact .inr (.inr ends)
  · intro branch b above hb isBranch head
    rw [eq.opcode?] at isBranch
    obtain ⟨d, read, _⟩ := inst_of_opcode? isBranch
    rw [operands branch d read] at head
    exact skeleton.wired.conditions branch b above
      (older branch b hb (mem_of_mem_head? head)) isBranch head

theorem added {v : ValueId} {k : Kind} {ty : Ty}
    (add : g.Added t v k ty) (free : k.values = []) : base.Skeleton t fn entry := by
  have nb := Kind.isBlock_of_values free
  have notInst := Kind.isInst_of_values free
  have empty : k.insts = [] := by
    cases k with
    | block d => cases nb
    | _ => rfl
  have bs : ∀ w, t.isBlock w = g.isBlock w := by
    intro w
    rw [Graph.isBlock, add.kind? w, Graph.isBlock]
    split
    next eq =>
      rw [eq, add.fresh, kind?_fresh]
      exact nb
    next => rfl
  have layout : t.layout fn = g.layout fn := by
    rw [Graph.layout, add.operandsOf, Graph.layout]
  have outside : ∀ w : ValueId, w.index < base.values.size → w ≠ v := by
    intro w lt
    rw [add.fresh]
    exact ne_fresh (Nat.lt_of_lt_of_le lt skeleton.framed.size)
  refine skeleton.congr add.consistent ⟨?_, ?_, ?_, ?_⟩ (add.code empty) ?_
    (fun w _ _ => add.operandsOf w) (fun w _ => bs w) ⟨?_, skeleton.laid.above, ?_, ?_, ?_, ?_⟩ ?_ ?_
  · rw [add.size]
    exact Nat.le_succ_of_le skeleton.framed.size
  · intro w lt
    rw [add.kind? w, if_neg (outside w lt), skeleton.framed.kind? w lt]
  · intro w lt
    rw [add.ty? w, if_neg (outside w lt), skeleton.framed.ty? w lt]
  · intro w lt
    rw [add.operandsOf w, skeleton.framed.operandsOf w lt]
  · intro w d
    rw [add.kind? w]
    split
    next eq =>
      rw [eq, add.fresh, kind?_fresh]
      constructor
      · intro hit
        cases hit
        cases notInst
      · intro hit
        cases hit
    next => rfl
  · obtain ⟨f, hit⟩ := skeleton.laid.function
    exact ⟨f, add.kind?_of_some hit⟩
  · rw [layout, add.operandsOf]
    exact skeleton.laid.slots
  · rw [layout]
    exact skeleton.laid.nodup
  · rw [layout]
    exact skeleton.laid.head
  · intro b
    rw [layout, bs]
    exact skeleton.laid.blocks b
  · intro b mem
    rwa [layout]
  · intro w other above hit u stands
    rw [add.kind? w] at hit
    rw [add.size]
    split at hit
    next =>
      cases hit
      rw [free] at stands
      cases stands
    next => exact Nat.lt_succ_of_lt (skeleton.within w other above hit u stands)

theorem rewired {refs : ValueId → List (Option ValueId) → List (Option ValueId)} (wired : g.Rewired t refs)
    (kept : ∀ v, v ≠ fn → g.isBlock v = false → refs v (g.operandsOf v) = g.operandsOf v)
    (old : ∀ v, v.index < base.values.size → refs v (g.operandsOf v) = g.operandsOf v)
    (ls : t.operandsOf fn = (t.layout fn).map some) (perm : (t.layout fn).Perm (g.layout fn))
    (head : (t.layout fn).head? = some entry) : base.Skeleton t fn entry := by
  have bs : ∀ w, t.isBlock w = g.isBlock w := by
    intro w
    rw [Graph.isBlock, wired.kind? w, Graph.isBlock]
  refine skeleton.congr wired.consistent ⟨?_, ?_, ?_, ?_⟩ ?_ ?_ ?_ (fun w _ => bs w)
    ⟨?_, skeleton.laid.above, ls, ?_, head, ?_⟩ (fun b mem => perm.mem_iff.2 mem) ?_
  · rw [wired.size]
    exact skeleton.framed.size
  · intro w lt
    rw [wired.kind? w, skeleton.framed.kind? w lt]
  · intro w lt
    rw [wired.ty? w, skeleton.framed.ty? w lt]
  · intro w lt
    rw [wired.operandsOf w, old w lt, skeleton.framed.operandsOf w lt]
  · intro w
    rw [Graph.code, wired.kind? w, Graph.code]
  · intro w d
    rw [wired.kind? w]
  · intro w notFunc nb
    rw [wired.operandsOf w, kept w notFunc nb]
  · obtain ⟨f, hit⟩ := skeleton.laid.function
    exact ⟨f, by rw [wired.kind? fn, hit]⟩
  · exact perm.nodup_iff.2 skeleton.laid.nodup
  · intro b
    rw [perm.mem_iff, bs]
    exact skeleton.laid.blocks b
  · intro w k above hit
    rw [wired.kind? w] at hit
    rw [wired.size]
    exact skeleton.within w k above hit

theorem edges {dests : List ValueId} {source : ValueId} (wired : g.Rewired t fun v old =>
      old ++ (dests.filter (· = v)).map fun _ => some source)
    (into : ∀ dest ∈ dests, dest ∈ g.layout fn) : base.Skeleton t fn entry := by
  have unchanged : ∀ v, v ∉ g.layout fn →
      g.operandsOf v ++ (dests.filter (· = v)).map (fun _ => some source) = g.operandsOf v := by
    intro v outside
    exact Builder.append_edges (fun mem => outside (into v mem)) source _
  have eq : t.operandsOf fn = g.operandsOf fn := by
    rw [wired.operandsOf fn, unchanged]
    intro mem
    have hb := ((skeleton.laid.blocks fn).1 mem).2
    rw [skeleton.isBlock_func] at hb
    cases hb
  have layout : t.layout fn = g.layout fn := by
    rw [Graph.layout, eq, Graph.layout]
  refine skeleton.rewired wired ?_ ?_ ?_ ?_ ?_
  · intro v _ nb
    refine unchanged v fun mem => ?_
    rw [((skeleton.laid.blocks v).1 mem).2] at nb
    cases nb
  · intro v lt
    exact unchanged v fun mem =>
      absurd ((skeleton.laid.blocks v).1 mem).1 (Nat.not_le_of_lt lt)
  · rw [layout, eq]
    exact skeleton.laid.slots
  · rw [layout]
  · rw [layout]
    exact skeleton.laid.head

end

theorem layout_blockAdded (add : Builder.BlockAdded g t b fn n) :
    t.layout fn = g.layout fn ++ [b] := by
  rw [Graph.layout, add.operandsOf, if_pos rfl, filterMap_append]
  rfl

theorem blockAdded (skeleton : base.Skeleton g fn entry) (added : Builder.BlockAdded g t b fn n) :
    base.Skeleton t fn entry := by
  have layout := layout_blockAdded added
  have blocks : ∀ v, t.isBlock v = (decide (v = b) || g.isBlock v) := by
    intro v
    rw [Graph.isBlock, added.kind? v, Graph.isBlock]
    by_cases isNew : v = b
    · rw [if_pos isNew, decide_eq_true isNew]
      rfl
    · rw [if_neg isNew, decide_eq_false isNew]
      rfl
  have fresh : ∀ v : ValueId, v.index < g.values.size → v ≠ b := by
    intro v into
    rw [added.fresh]
    exact ne_fresh into
  have outside : ∀ v : ValueId, v.index < base.values.size → v ≠ b := fun v bound =>
    fresh v (Nat.lt_of_lt_of_le bound skeleton.framed.size)
  refine skeleton.congr added.consistent ⟨?_, ?_, ?_, ?_⟩ added.code ?_ ?_ ?_
    ⟨?_, skeleton.laid.above, ?_, ?_, ?_, ?_⟩ ?_ ?_
  · rw [added.size]
    exact Nat.le_succ_of_le skeleton.framed.size
  · intro v bound
    rw [added.kind? v, if_neg (outside v bound), skeleton.framed.kind? v bound]
  · intro v bound
    rw [added.ty? v, if_neg (outside v bound), skeleton.framed.ty? v bound]
  · intro v bound
    rw [added.operandsOf v, if_neg, skeleton.framed.operandsOf v bound]
    rintro rfl
    exact absurd skeleton.laid.above (Nat.not_le_of_lt bound)
  · intro v d
    rw [added.kind? v]
    split
    next eq =>
      rw [eq, added.fresh, kind?_fresh]
      constructor <;> intro hit <;> cases hit
    next => rfl
  · intro v notFunc _
    rw [added.operandsOf v, if_neg notFunc]
  · intro v into
    rw [blocks, decide_eq_false (fresh v into), Bool.false_or]
  · obtain ⟨f, hit⟩ := skeleton.laid.function
    exact ⟨f, added.kind?_of_some hit⟩
  · rw [layout, added.operandsOf, if_pos rfl, map_append, ← skeleton.laid.slots]
    rfl
  · rw [layout, nodup_append]
    refine ⟨skeleton.laid.nodup, nodup_singleton _, ?_⟩
    rintro v mem _ isNew rfl
    exact fresh v (lt_of_isBlock ((skeleton.laid.blocks v).1 mem).2) (mem_singleton.1 isNew)
  · rw [layout, head?_append, skeleton.laid.head]
    rfl
  · intro v
    rw [layout, mem_append, mem_singleton, blocks, Bool.or_eq_true, decide_eq_true_eq, skeleton.laid.blocks]
    constructor
    · rintro (⟨above, isBlock⟩ | rfl)
      · exact ⟨above, .inr isBlock⟩
      · refine ⟨?_, .inl rfl⟩
        rw [added.fresh]
        exact skeleton.framed.size
    · rintro ⟨above, rfl | isBlock⟩
      · exact .inr rfl
      · exact .inl ⟨above, isBlock⟩
  · intro v mem
    rw [layout]
    exact mem_append_left _ mem
  · obtain ⟨f, isFunction⟩ := skeleton.laid.function
    exact skeleton.within.blockAdded added (lt_of_kind? isFunction)

end Skeleton
end Graph
end Midend

namespace Midend.Builder
open List Graph

def targetOperands (op : Opcode) (operands : List ValueId) : List ValueId :=
  match op with
  | .jmp => operands
  | .br => operands.drop 1
  | _ => []

namespace Inserted
variable {base : Graph} {fn entry : ValueId} {m t : Module} {i : ValueId} {op : Opcode}
  {ty : Ty} {operands : List ValueId} {attr : Attr} {pt : InsertPoint} {d : Block}

section
variable (put : Inserted m t i op ty operands attr pt d)
include put

theorem targetsOf_self : t.graph.targetsOf i = targetOperands op operands := by
  rw [Graph.targetsOf, put.opcode?_self, put.operandsOf, if_pos rfl]
  cases op <;> simp [targetOperands, ← map_tail, filterMap_map]

theorem coded (coded : base.Coded m.graph entry) (size : base.values.size ≤ m.graph.values.size)
    (above : base.values.size ≤ pt.block.index)
    (last : op.isTerminator → pt.index = (m.graph.code pt.block).length)
    (slot : op = .alloca → pt.block = entry) : base.Coded t.graph entry := by
  have older : ∀ b v, base.values.size ≤ b.index → v ∈ m.graph.code b → v ≠ i := by
    intro b v new mem
    obtain ⟨_, d, hit, _⟩ := coded.listed b v new mem
    exact put.ne_of_lt (lt_of_kind? hit)
  refine ⟨?_, ?_, ?_, ?_, ?_⟩
  · intro b v new mem
    rcases (put.mem_code b v).1 mem with ⟨rfl, rfl⟩ | old
    · refine ⟨?_, _, put.kind?_self, rfl⟩
      rw [put.fresh]
      exact size
    · obtain ⟨isNew, d, hit, parent⟩ := coded.listed b v new old
      exact ⟨isNew, d, (put.kind?_inst (older b v new old)).2 hit, parent⟩
  · intro v d new hit
    by_cases isInst : v = i
    · subst isInst
      rw [put.kind?_self] at hit
      cases hit
      exact ⟨above, (put.mem_code _ _).2 (.inl ⟨rfl, rfl⟩)⟩
    · obtain ⟨home, mem⟩ := coded.homes v d new ((put.kind?_inst isInst).1 hit)
      exact ⟨home, (put.mem_code _ _).2 (.inr mem)⟩
  · intro b new
    have once := coded.once b new
    by_cases isHere : b = pt.block
    · subst isHere
      obtain ⟨pre, now⟩ := put.code_split
      have perm : (t.graph.code pt.block).Perm (i :: m.graph.code pt.block) := by
        rw [now]
        nth_rewrite 3 [pre]
        exact perm_middle
      rw [perm.nodup_iff, nodup_cons]
      exact ⟨fun mem => older _ _ new mem rfl, once⟩
    · rw [put.code, if_neg isHere]
      exact once
  · intro b new v mem
    have kept : ∀ v, v ∈ m.graph.code b → ¬ m.graph.isTerminator v → ¬ t.graph.isTerminator v := by
      intro v old inner
      rwa [Graph.isTerminator, put.opcode? (older b v new old)]
    by_cases isHere : b = pt.block
    · subst isHere
      obtain ⟨pre, now⟩ := put.code_split
      have inner := coded.ends pt.block new
      rw [now] at mem
      cases behind : (m.graph.code pt.block).drop pt.index with
      | nil =>
        -- At the end of the block there is room only if no terminator is there.
        rw [behind, dropLast_concat] at mem
        have old := mem_of_mem_take mem
        refine kept v old (coded.opened new ?_ v old)
        exact put.opened (Nat.le_antisymm (code_of_kind? put.block ▸ put.bound) (drop_eq_nil_iff.1 behind))
      | cons next tl =>
        have notLast : ¬ op.isTerminator := by
          intro ends
          rw [last ends, drop_length] at behind
          cases behind
        rw [behind, dropLast_append_of_ne_nil (by simp), dropLast_cons_cons] at mem
        rw [pre, behind, dropLast_append_of_ne_nil (by simp)] at inner
        rcases mem_append.1 mem with early | late
        · exact kept v (mem_of_mem_take early) (inner v (mem_append_left _ early))
        · rcases mem_cons.1 late with rfl | late
          · rwa [isTerminator_of_opcode? put.opcode?_self]
          · refine kept v ?_ (inner v (mem_append_right _ late))
            rw [pre, behind]
            exact mem_append_right _ ((dropLast_sublist _).subset late)
    · rw [put.code, if_neg isHere] at mem
      exact kept v ((dropLast_sublist _).subset mem) (coded.ends b new v mem)
  · intro v d new hit isAlloca
    by_cases isInst : v = i
    · subst isInst
      rw [put.kind?_self] at hit
      cases hit
      exact slot isAlloca
    · exact coded.slotsIn v d new ((put.kind?_inst isInst).1 hit) isAlloca

theorem within (within : base.Within m.graph) : base.Within t.graph := by
  intro v k above hit w stands
  rw [put.size]
  rw [put.kind? v] at hit
  split at hit
  next =>
    cases hit
    obtain rfl := mem_singleton.1 stands
    exact Nat.lt_succ_of_lt (lt_of_kind? put.block)
  next =>
  split at hit
  next isHere =>
    cases hit
    by_cases isInst : w = i
    · rw [isInst, put.fresh]
      exact Nat.lt_succ_self _
    · refine Nat.lt_succ_of_lt (within v _ above (isHere ▸ put.block) w ?_)
      simpa [Kind.values, mem_insertIdx put.bound, isInst] using stands
  next => exact Nat.lt_succ_of_lt (within v k above hit w stands)

/-- Inserting an instruction keeps the skeleton of its function. -/
theorem skeleton (skeleton : base.Skeleton m.graph fn entry) (mem : pt.block ∈ m.graph.layout fn)
    (last : op.isTerminator → pt.index = (m.graph.code pt.block).length)
    (slot : op = .alloca → pt.block = entry)
    (plain : op.isTerminator = false → ∀ v ∈ operands, m.graph.isBlock v = false)
    (cond : op = .br → ∀ v ∈ operands.head?, m.graph.isBlock v = false)
    (dests : ∀ dest ∈ targetOperands op operands, dest ∈ m.graph.layout fn) :
    base.Skeleton t.graph fn entry := by
  obtain ⟨above, _⟩ := (skeleton.laid.blocks pt.block).1 mem
  obtain ⟨f, isFn⟩ := skeleton.laid.function
  have layout := put.layout (lt_of_kind? isFn)
  have outside : ∀ v : ValueId, v.index < base.values.size → v ≠ i := fun v lt =>
    put.ne_of_lt (Nat.lt_of_lt_of_le lt skeleton.framed.size)
  have operandsOf : ∀ v, v ≠ i → t.graph.operandsOf v = m.graph.operandsOf v := by
    intro v ne
    rw [put.operandsOf, if_neg ne]
  refine ⟨put.consistent, ⟨?_, ?_, ?_, ?_⟩, put.coded skeleton.coded skeleton.framed.size above last slot,
    ⟨?_, skeleton.laid.above, ?_, ?_, ?_, ?_⟩, ⟨?_, ?_, ?_⟩, put.within skeleton.within⟩
  · rw [put.size]
    exact Nat.le_succ_of_le skeleton.framed.size
  · intro v lt
    rw [put.kind?_of_ne (outside v lt), skeleton.framed.kind? v lt]
    rintro rfl
    exact absurd above (Nat.not_le_of_lt lt)
  · intro v lt
    rw [put.ty? v, if_neg (outside v lt), skeleton.framed.ty? v lt]
  · intro v lt
    rw [operandsOf v (outside v lt), skeleton.framed.operandsOf v lt]
  · refine ⟨f, ?_⟩
    rw [put.kind?_of_ne (put.ne_of_lt (lt_of_kind? isFn)), isFn]
    rintro rfl
    cases put.block.symm.trans isFn
  · rw [layout, operandsOf fn (put.ne_of_lt (lt_of_kind? isFn))]
    exact skeleton.laid.slots
  · rw [layout]
    exact skeleton.laid.nodup
  · rw [layout]
    exact skeleton.laid.head
  · intro b
    rw [layout, put.isBlock]
    exact skeleton.laid.blocks b
  · intro v new dest goes
    rw [layout]
    by_cases isInst : v = i
    · subst isInst
      rw [put.targetsOf_self] at goes
      exact dests dest goes
    · rw [Graph.targetsOf, put.opcode? isInst, operandsOf v isInst] at goes
      exact skeleton.wired.targets v new dest goes
  · intro user b new hb held
    rw [put.isBlock] at hb ⊢
    by_cases isInst : user = i
    · subst isInst
      refine .inr (.inr ?_)
      rw [put.operandsOf, if_pos rfl] at held
      obtain ⟨_, isIn, eq⟩ := mem_map.1 held
      cases eq
      rw [isTerminator_of_opcode? put.opcode?_self]
      cases ends : op.isTerminator with
      | true => rfl
      | false =>
        rw [plain ends _ isIn] at hb
        cases hb
    · rw [Graph.isTerminator, put.opcode? isInst]
      rw [operandsOf user isInst] at held
      exact skeleton.wired.references user b new hb held
  · intro branch b new hb isBranch head
    rw [put.isBlock] at hb
    by_cases isInst : branch = i
    · subst isInst
      rw [put.opcode?_self] at isBranch
      rw [put.operandsOf, if_pos rfl, head?_map, Option.map_eq_some_iff] at head
      obtain ⟨first, hit, eq⟩ := head
      cases eq
      rw [cond (Option.some.inj isBranch) b hit] at hb
      cases hb
    · rw [put.opcode? isInst] at isBranch
      rw [operandsOf branch isInst] at head
      exact skeleton.wired.conditions branch b new hb isBranch head

end

end Inserted
end Midend.Builder
