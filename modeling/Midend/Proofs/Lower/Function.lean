import Mathlib
import Midend.Proofs.Lower.Stmt

/-! Lowering of a function. What is lowered without a mistake has its shape, and is well
formed; what has a mistake leaves the functions before it as they are. -/
namespace Midend
open List Builder Graph
variable {b : ValueId}

namespace Builder.FunctionAdded
variable {base g t : Graph} {fn entry : ValueId} {n : String} {ty : Ty}
  {argNames : List String} {args : List ValueId}
variable {k : Kind} {v : ValueId}

section
variable (added : FunctionAdded base g fn n ty argNames args)
include added

theorem kind_new (above : base.values.size ≤ v.index) (hit : g.kind? v = some k) :
    k = .function ⟨n, args⟩ ∨ ∃ i argName, k = .argument i argName := by
  have into := lt_of_kind? hit
  rw [added.size] at into
  rcases Nat.eq_or_lt_of_le above with eq | later
  · have isFunc : v = fn := by
      rw [added.fresh, eq]
    rw [isFunc, added.kind?] at hit
    exact .inl (Option.some.inj hit).symm
  · obtain ⟨arg, isArg⟩ : ∃ arg, args[v.index - (base.values.size + 1)]? = some arg :=
      ⟨_, getElem?_eq_getElem (by omega)⟩
    obtain ⟨eq, argName, _, _, _, kindArg, _⟩ := added.args _ arg isArg
    have isV : v = arg := by
      rw [eq, Nat.add_sub_cancel' later]
    rw [isV, kindArg] at hit
    exact .inr ⟨_, _, (Option.some.inj hit).symm⟩

theorem new (above : base.values.size ≤ v.index) (hit : g.kind? v = some k) :
    k.isBlock = false ∧ k.isInst = false := by
  rcases added.kind_new above hit with rfl | ⟨_, _, rfl⟩
  · exact ⟨rfl, rfl⟩
  · exact ⟨rfl, rfl⟩

theorem code_nil (above : base.values.size ≤ v.index) : g.code v = [] := by
  cases hit : g.kind? v with
  | none => rw [Graph.code, hit]; rfl
  | some k =>
    have nb := (added.new above hit).1
    rw [Graph.code, hit]
    cases k with
    | block d => cases nb
    | _ => rfl

theorem plain_arg {arg : ValueId} (mem : arg ∈ args) : g.Plain arg := by
  obtain ⟨i, isArg⟩ := mem_iff_getElem?.1 mem
  obtain ⟨_, _, _, _, _, k, _⟩ := added.args i arg isArg
  exact plain_of_kind? k rfl

theorem operandsOf_nil (above : base.values.size ≤ v.index) : g.operandsOf v = [] := by
  rw [added.operandsOf]
  exact operandsOf_nil_of_ge above

theorem within : base.Within g := by
  intro v k above hit w stands
  rcases added.kind_new above hit with rfl | ⟨_, _, rfl⟩
  · exact (added.plain_arg stands).inside
  · cases stands

theorem skeleton {label : Option String}
    (first : BlockAdded g t entry fn label) : base.Skeleton t fn entry := by
  have funcAbove : base.values.size ≤ fn.index := Nat.le_of_eq (by rw [added.fresh])
  have entryAbove : base.values.size ≤ entry.index := by
    rw [first.fresh]
    exact added.framed.size
  have layout : t.layout fn = [entry] := by
    rw [Graph.Skeleton.layout_blockAdded first, Graph.layout, added.operandsOf_nil funcAbove]
    rfl
  have old : ∀ v : ValueId, v.index < base.values.size → v ≠ entry := by
    intro v lt
    exact first.ne_of_lt (Nat.lt_of_lt_of_le lt added.framed.size)
  have noInst : ∀ v d, base.values.size ≤ v.index → t.kind? v ≠ some (.inst d) := by
    intro v d above hit
    rw [first.kind? v] at hit
    split at hit
    · cases hit
    · exact absurd (added.new above hit).2 (by simp [Kind.isInst])
  have cs : ∀ v, base.values.size ≤ v.index → t.code v = [] := by
    intro v above
    rw [first.code, added.code_nil above]
  have ops : ∀ v, base.values.size ≤ v.index → v ≠ fn → t.operandsOf v = [] := by
    intro v above notFunc
    rw [first.operandsOf, if_neg notFunc, added.operandsOf_nil above]
  refine ⟨first.consistent, ⟨?_, ?_, ?_, ?_⟩, ⟨?_, ?_, ?_, ?_, ?_⟩,
    ⟨⟨⟨n, args⟩, first.kind?_of_some added.kind?⟩, funcAbove, ?_, ?_, ?_, ?_⟩, ⟨?_, ?_, ?_⟩,
    added.within.blockAdded first (lt_of_kind? added.kind?)⟩
  · rw [first.size]
    exact Nat.le_succ_of_le added.framed.size
  · intro v lt
    rw [first.kind? v, if_neg (old v lt), added.framed.kind? v lt]
  · intro v lt
    rw [first.ty? v, if_neg (old v lt), added.framed.ty? v lt]
  · intro v lt
    rw [first.operandsOf v, if_neg, added.operandsOf v]
    rintro rfl
    exact absurd lt (Nat.not_lt_of_le funcAbove)
  · intro b i above mem
    rw [cs b above] at mem
    cases mem
  · intro i d above hit
    exact absurd hit (noInst i d above)
  · intro b above
    rw [cs b above]
    exact nodup_nil
  · intro b above i mem
    rw [cs b above] at mem
    cases mem
  · intro i d above hit
    exact absurd hit (noInst i d above)
  · rw [layout, first.operandsOf, if_pos rfl, added.operandsOf_nil funcAbove]
    rfl
  · rw [layout]
    exact nodup_singleton _
  · rw [layout]
    rfl
  · intro b
    rw [layout, mem_singleton]
    constructor
    · rintro rfl
      refine ⟨entryAbove, ?_⟩
      rw [Graph.isBlock, first.kind?, if_pos rfl]
      rfl
    · rintro ⟨above, hb⟩
      obtain ⟨d, hit⟩ := block_of_isBlock hb
      rw [first.kind? b] at hit
      split at hit
      next eq => exact eq
      next => exact absurd (added.new above hit).1 (by simp [Kind.isBlock])
  · intro i above dest goes
    obtain ⟨op, isOp, _⟩ := opcode?_of_isTerminator (isTerminator_of_mem_targetsOf goes)
    obtain ⟨d, hit, _⟩ := inst_of_opcode? isOp
    exact absurd hit (noInst i d above)
  · intro user b above hb held
    by_cases isFunc : user = fn
    · exact .inl isFunc
    · rw [ops user above isFunc] at held
      cases held
  · intro branch b above _ isBranch
    obtain ⟨d, hit, _⟩ := inst_of_opcode? isBranch
    exact absurd hit (noInst branch d above)

end

end Builder.FunctionAdded

theorem Builder.moveBlockToEnd_ok {m t : Module} {fn : ValueId} {res : Unit} (valid : m.graph.Consistent)
    (done : Builder.moveBlockToEnd fn b m = .ok (res, t)) :
    m.graph.Rewired t.graph (fun v old =>
        if v = fn then Graph.moved old (some b) old.length else old) ∧
      t = { m with graph := t.graph } := by
  obtain ⟨graph, upd, rfl⟩ := change_ok.1 done
  obtain ⟨count, counted, moving⟩ := bind_eq_ok.1 upd
  obtain ⟨d, read, rfl⟩ := map_eq_ok.1 counted
  have length : (m.graph.operandsOf fn).length = d.operands.length := by
    rw [Graph.operandsOf, length_map, slots_of_value read]
  obtain ⟨graph', moved, wired⟩ :=
    valid.moveBlock_rewired (lt_of_value read) b d.operands.length
  obtain rfl : graph' = graph := Except.ok.inj (moved.symm.trans moving)
  refine ⟨wired.congr ?_, rfl⟩
  intro v
  split
  next eq => rw [eq, length]
  next => rfl

theorem Graph.Grows.blockName? {entry : ValueId} {g t : Graph} {n : String} (grows : g.Grows entry t)
    (hit : g.blockName? b = some n) : t.blockName? b = some n := by
  unfold Graph.blockName? at hit ⊢
  split at hit
  next d hb =>
    obtain ⟨insts, now, _⟩ := grows.block b d hb
    rw [now]
    exact hit
  next => cases hit

namespace Site
variable {u : Site} {scs : ScopeTable ValueId} {st : FunctionState} {m t : Module} {here : ValueId}
variable {exit : ValueId}

theorem Building.moveBlockToEnd (building : u.Building scs st m here) {res : Unit}
    (mem : b ∈ m.graph.layout u.func) (notEntry : b ≠ u.entry)
    (done : Builder.moveBlockToEnd u.func b m = .ok (res, t)) :
    u.Building scs st t here ∧ m.graph.Grows u.entry t.graph ∧
      (∀ v, t.graph.kind? v = m.graph.kind? v) ∧
      t.graph.layout u.func = (m.graph.layout u.func).erase b ++ [b] := by
  obtain ⟨wired, eq⟩ := moveBlockToEnd_ok building.skeleton.consistent done
  have ls := building.skeleton.laid.slots
  have now : t.graph.operandsOf u.func = ((m.graph.layout u.func).erase b ++ [b]).map some := by
    rw [wired.operandsOf, if_pos rfl, moved_end (by rw [ls]; exact mem_map_of_mem mem),
      ls, map_append, map_erase (fun _ _ eq => Option.some.inj eq)]
    rfl
  have layout : t.graph.layout u.func = (m.graph.layout u.func).erase b ++ [b] := by
    rw [Graph.layout, now, filterMap_map]
    simp
  have perm : (t.graph.layout u.func).Perm (m.graph.layout u.func) := by
    rw [layout]
    exact (perm_append_singleton _ _).trans (perm_cons_erase mem).symm
  have kept : ∀ v, v ≠ u.func → (if v = u.func then
      Graph.moved (m.graph.operandsOf v) (some b) (m.graph.operandsOf v).length
      else m.graph.operandsOf v) = m.graph.operandsOf v := fun v notFunc => if_neg notFunc
  have grows := wired.grows u.entry fun v d hit => kept v (building.skeleton.func_ne hit)
  have skel : u.base.Skeleton t.graph u.func u.entry := by
    refine building.skeleton.rewired wired (fun v notFunc _ => kept v notFunc) ?_ ?_ perm ?_
    · rintro v lt
      refine kept v ?_
      rintro rfl
      exact absurd building.skeleton.laid.above (Nat.not_le_of_lt lt)
    · rw [now, layout]
    · obtain ⟨tl, split⟩ := head?_eq_some_iff.1 building.skeleton.laid.head
      rw [layout, split, erase_cons_tail (by simpa using Ne.symm notEntry)]
      rfl
  refine ⟨?_, grows, wired.kind?, layout⟩
  have cs : t.graph.code here = m.graph.code here := by
    rw [Graph.code, wired.kind?, Graph.code]
  refine building.grown skel ?_ grows perm.symm.subset (by rw [eq]; exact ⟨rfl, rfl, rfl, rfl⟩) ?_
    (perm.mem_iff.2 building.member)
  · intro v above
    rw [Graph.opcode?, wired.kind?]
    exact building.noReturn v above
  · rw [cs, eq]
    exact building.point

structure Returning (site : Site) (scopes : ScopeTable ValueId) (state : FunctionState) (m : Module)
    (here exit : ValueId) : Prop where
  building : site.Building scopes state m here
  inside : exit ∈ m.graph.layout site.func
  notEntry : exit ≠ site.entry
  ended : ∀ block ∈ m.graph.layout site.func, block ≠ exit → ∃ last, m.graph.lastOf block = some last
  entryJump : ∃ last, m.graph.lastOf site.entry = some last ∧ m.graph.opcode? last = some .jmp
  entryName : m.graph.blockName? site.entry = some "entry"
  exitName : m.graph.blockName? exit = some "func_exit"
  first : ∀ block ∈ m.graph.layout site.func, site.entry.index ≤ block.index
  opened : m.graph.lastOf exit = none
  reaches : m.graph.Reaches site.entry exit

theorem Returning.grown {there : ValueId} (returning : u.Returning scs st m here exit)
    (building : u.Building scs st t there) (grows : m.graph.Grows u.entry t.graph)
    (layout : ∀ b, b ∈ t.graph.layout u.func ↔ b ∈ m.graph.layout u.func)
    (opened : t.graph.lastOf exit = none) : u.Returning scs st t there exit := by
  have stays : ∀ b last, u.base.values.size ≤ b.index → m.graph.lastOf b = some last →
      t.graph.lastOf b = some last := fun b last above ends =>
    grows.lastOf building.skeleton.coded above ends
  have above : ∀ b ∈ t.graph.layout u.func, u.base.values.size ≤ b.index :=
    fun b mem => ((building.skeleton.laid.blocks b).1 mem).1
  refine ⟨building, (layout exit).2 returning.inside, returning.notEntry, ?_, ?_,
    grows.blockName? returning.entryName, grows.blockName? returning.exitName, ?_, opened,
    grows.reaches returning.building.skeleton building.skeleton returning.building.skeleton.entry_mem returning.reaches⟩
  · intro b mem notExit
    obtain ⟨last, ends⟩ := returning.ended b ((layout b).1 mem) notExit
    exact ⟨last, stays b last (above b mem) ends⟩
  · obtain ⟨last, ends, isJump⟩ := returning.entryJump
    exact ⟨last, stays _ last (above _ building.skeleton.entry_mem) ends, grows.opcode? isJump⟩
  · intro b mem
    exact returning.first b ((layout b).1 mem)

/-- Returning lets control come to nothing more. -/
theorem Returning.skips {g : Graph} {m' : Stretch} (returning : u.Returning scs st m here exit)
    (skips : m.graph.Skips u.entry m') (within : m'.last ≤ m.graph.values.size)
    (skel : u.base.Skeleton g u.func u.entry) (grows : m.graph.Grows u.entry g)
    (left : g.exits exit = []) : g.Skips u.entry m' := by
  have pre := returning.building.skeleton
  have above : ∀ b ∈ m.graph.layout u.func, u.base.values.size ≤ b.index :=
    fun b mem => ((pre.laid.blocks b).1 mem).1
  have old : ∀ {b}, g.Reaches u.entry b → m.graph.Reaches u.entry b := by
    intro b path
    induction path with
    | start => exact .start
    | @next a b _ goes ih =>
      by_cases isExit : a = exit
      · rw [isExit, left] at goes
        cases goes
      · have into := pre.reaches_mem pre.entry_mem ih
        obtain ⟨last, ends⟩ := returning.ended a into isExit
        rw [grows.exits_eq ((grows.lastOf skel.coded (above a into) ends).trans ends.symm)] at goes
        exact ih.next goes
  intro i b has isIn notSlot path
  have into := pre.reaches_mem pre.entry_mem (old path)
  obtain ⟨new, d, found, rfl⟩ := skel.coded.listed b i (above b into) isIn
  have found := grows.inst_of (Nat.lt_of_lt_of_le has.2 within) found
  refine skips i d.parent has (pre.coded.homes i d new found).2 ?_ (old path)
  intro isSlot
  exact notSlot (grows.opcode? isSlot)

/-- A function that has got its return has its shape. -/
theorem Returning.shaped {ret : ValueId} {ops : List ValueId} {pt : InsertPoint} {d : Block}
    {ty returnTy : Ty} (returning : u.Returning scs st m exit exit) (ok : u.base.Consistent)
    (contained : u.base.Contained) (put : Builder.Inserted m t ret .ret .void ops .none pt d)
    (final : (m.graph.layout u.func).getLast? = some exit) (isTy : m.graph.ty? u.func = some ty)
    (returns : ty.returnType? = some returnTy)
    (arg : if returnTy.isVoid then ops = [] else ∃ val, ops = [val]) :
    u.base.Skeleton t.graph u.func u.entry ∧ t.graph.exits exit = [] ∧ t.graph.WellFormed u.func ∧
      t.graph.Shaped u.func ∧ t.graph.Passable u.func := by
  have building := returning.building
  obtain rfl := building.point_eq put
  have grows := put.grows u.entry rfl
  have layout := building.layout_inserted put
  have cs := put.code_end rfl
  have skel := put.skeleton building.skeleton building.member (fun _ => rfl)
    (fun isSlot => by cases isSlot) (fun inner => by cases inner) (fun isBranch => by cases isBranch)
    (fun dest goes => by cases goes)
  have above : ∀ b ∈ t.graph.layout u.func, u.base.values.size ≤ b.index :=
    fun b mem => ((skel.laid.blocks b).1 mem).1
  have stays : ∀ b last, u.base.values.size ≤ b.index → m.graph.lastOf b = some last →
      t.graph.lastOf b = some last := fun b last new ends =>
    grows.lastOf skel.coded new ends
  have returned : t.graph.lastOf exit = some ret := by
    rw [Graph.lastOf, cs, getLast?_concat, Option.filter_some, if_pos]
    rw [isTerminator_of_opcode? put.opcode?_self]
    rfl
  have ended : ∀ b ∈ t.graph.layout u.func, ∃ last, t.graph.lastOf b = some last := by
    intro b mem
    by_cases isExit : b = exit
    · exact ⟨ret, isExit ▸ returned⟩
    · obtain ⟨last, ends⟩ := returning.ended b (layout ▸ mem) isExit
      exact ⟨last, stays b last (above b mem) ends⟩
  have wf := skel.wellFormed ok ended
  refine ⟨skel, by simp [exits, returned, targetsOf, put.opcode?_self], wf, ⟨wf.terminated, ?_, ?_, ?_, ?_, ?_, ?_⟩, u.entry, exit, skel.laid.head,
    layout ▸ final, grows.reaches building.skeleton skel building.skeleton.entry_mem returning.reaches⟩
  · obtain ⟨last, ends, isJump⟩ := returning.entryJump
    refine ⟨u.entry, last, skel.laid.head, grows.blockName? returning.entryName, ?_, ?_,
      grows.opcode? isJump, ?_⟩
    · rw [layout]
      exact returning.first
    · exact (Option.filter_eq_some_iff.1 (stays _ last (above _ skel.entry_mem) ends)).1
    · intro b mem i isIn isSlot
      obtain ⟨new, d, hit, rfl⟩ := skel.coded.listed b i (above b mem) isIn
      refine skel.coded.slotsIn i d new hit ?_
      rw [opcode?_eq hit] at isSlot
      exact Option.some.inj isSlot
  · refine ⟨exit, ret, layout ▸ final, grows.blockName? returning.exitName, ?_, put.opcode?_self, ?_,
      ty, returnTy, grows.ty? _ _ isTy, returns, ?_⟩
    · rw [cs, getLast?_concat]
    · intro b mem i isIn isReturn
      by_contra w
      rw [put.opcode? w] at isReturn
      exact building.noReturn i (skel.coded.listed b i (above b mem) isIn).1 isReturn
    · rw [put.operandsOf, if_pos rfl]
      split
      next isVoid =>
        rw [if_pos isVoid] at arg
        rw [arg]
        rfl
      next notVoid =>
        rw [if_neg notVoid] at arg
        obtain ⟨val, rfl⟩ := arg
        exact ⟨val, rfl⟩
  · intro b mem i isIn
    exact (skel.coded.listed b i (above b mem) isIn).2
  · intro i d hit home
    rcases Nat.lt_or_ge i.index u.base.values.size with old | new
    · rw [skel.framed.kind? i old] at hit
      exact absurd (contained.homes hit) (Nat.not_lt_of_le (above _ home))
    · exact (skel.coded.homes i d new hit).2
  · intro b mem
    exact skel.coded.once b (above b mem)
  · intro b mem i isIn w listed'
    obtain ⟨isNew, d, hit, rfl⟩ := skel.coded.listed b i (above b mem) isIn
    rcases Nat.lt_or_ge w.index u.base.values.size with old | new
    · rw [skel.framed.code old] at listed'
      exact absurd (contained.code listed') (Nat.not_lt_of_le isNew)
    · obtain ⟨_, data', found', rfl⟩ := skel.coded.listed w i new listed'
      cases hit.symm.trans found'
      rfl

theorem Building.setExit (building : u.Building scs st m here) (mem : exit ∈ m.graph.layout u.func) :
    u.Building scs { st with exit := some exit }
      { m with current := m.current.map fun s => { s with exit := some exit } } here := by
  refine ⟨⟨building.skeleton, building.symbols, building.depth, building.outermost,
    building.functions, building.globals, building.callable⟩, building.noReturn, building.names, ?_, building.function,
    building.entry, ?_, building.returnSlot, building.point, building.member⟩
  · show m.current.map _ = _
    rw [building.current]
    rfl
  · intro b isExit
    cases isExit
    exact mem

theorem Building.setReturnSlot (building : u.Building scs st m here) {slot : ValueId}
    (plain : m.graph.Plain slot) :
    u.Building scs { st with returnSlot := some slot }
      { m with current := m.current.map fun s => { s with returnSlot := some slot } } here := by
  refine ⟨⟨building.skeleton, building.symbols, building.depth, building.outermost,
    building.functions, building.globals, building.callable⟩, building.noReturn, building.names, ?_, building.function,
    building.entry, building.exit, ?_, building.point, building.member⟩
  · show m.current.map _ = _
    rw [building.current]
    rfl
  · intro other isSlot
    cases isSlot
    exact plain

end Site

namespace Lower
variable {u : Site} {scs : ScopeTable ValueId} {st : FunctionState} {s : Lowering}
  {here : ValueId} {broken : Lowering → Prop}
variable {ty : Ty} {safe : Prop}

section Entry
variable (building : u.Building scs st s.module u.entry) (opened : s.module.graph.lastOf u.entry = none)
include building opened

private theorem entrySlot_finishes {n : Option String} (ready : safe → s.module.graph.Typed ∧ ty.isVoid = false ∧
      (s.module.graph.code u.entry).length + 1 < InsertPoint.indexBound) :
    Finishes safe (build (Builder.alloca ty n)) s broken fun slot t =>
      (u.Passed scs st s u.entry t u.entry ∧ t.module.graph.Plain slot) ∧
        (safe → t.module.graph.Typed ∧ t.module.graph.ty? slot = some (.pointer ty.unqualified) ∧
          (t.module.graph.code u.entry).length = (s.module.graph.code u.entry).length + 1) := by
  have runs : safe → Builder.Runs (Builder.alloca ty n) s.module fun slot last =>
      last.graph.Typed ∧ last.graph.ty? slot = some (.pointer ty.unqualified) ∧
        (last.graph.code u.entry).length = (s.module.graph.code u.entry).length + 1 := by
    intro isSafe
    obtain ⟨typed, notVoid, room⟩ := ready isSafe
    have fill : u.Fillable scs st s.module u.entry := ⟨building, opened, typed⟩
    apply Builder.Runs.mono (fill.alloca notVoid fun _ => room)
    intro slot module acted ⟨_, typed, _, isTy⟩
    refine ⟨typed, isTy, ?_⟩
    obtain ⟨state', d, current, allocated⟩ := alloca_ok building.skeleton.consistent acted
    cases building.current.symm.trans current
    rw [building.entry] at allocated
    have lt := slotPosition_le s.module.graph u.entry
    rw [allocated.code, length_append, length_cons, length_take, length_drop]
    omega
  exact .of_ends runs (.build fun _ _ done => ⟨(building.alloca done).1.passed, (building.alloca done).2⟩)

private theorem entryStore_finishes {val slot : ValueId} (plain : s.module.graph.Plain val)
    (plainSlot : s.module.graph.Plain slot)
    (ready : safe → s.module.graph.Typed ∧ ∃ pointee, s.module.graph.ty? slot = some (.pointer pointee)) :
    Finishes safe (build (Builder.store val slot)) s broken fun _ t =>
      u.Passed scs st s u.entry t u.entry ∧ (safe → t.module.graph.Typed ∧
          (t.module.graph.code u.entry).length = (s.module.graph.code u.entry).length + 1) := by
  have runs : safe → Builder.Runs (Builder.store val slot) s.module fun _ last =>
      last.graph.Typed ∧ (last.graph.code u.entry).length = (s.module.graph.code u.entry).length + 1 := by
    intro isSafe
    obtain ⟨typed, pointee, isTy⟩ := ready isSafe
    have fill : u.Fillable scs st s.module u.entry := ⟨building, opened, typed⟩
    apply Builder.Runs.mono (fill.store plain plainSlot isTy rfl)
    intro i module acted ⟨_, typed, _⟩
    refine ⟨typed, ?_⟩
    obtain ⟨_, _, _, inserting⟩ := store_ok acted
    obtain ⟨pt, d, put⟩ := insertInst_ok building.skeleton.consistent inserting
    obtain rfl := building.point_eq put
    rw [put.code_end rfl, length_append]
    rfl
  exact .of_ends runs (store_ends building plain plainSlot)

private theorem paramSlot_finishes {param : Param} {arg : ValueId} (nested : 0 < scs.inner.length)
    (plain : s.module.graph.Plain arg) (ready : safe → s.module.graph.Typed ∧ param.ty.isVoid = false ∧
      (s.module.graph.code u.entry).length + 1 < InsertPoint.indexBound) :
    Finishes safe (paramSlot param arg) s broken fun _ t =>
      ∃ scopes', (u.Passed scopes' st s u.entry t u.entry ∧
        scopes'.inner.length = scs.inner.length) ∧ (safe → t.module.graph.Typed ∧
          (t.module.graph.code u.entry).length = (s.module.graph.code u.entry).length + 2) := by
  refine (entrySlot_finishes building opened ready).bind ?_
  intro slot s1 ⟨⟨passed1, plainSlot⟩, sure1⟩
  refine (entryStore_finishes passed1.building (passed1.opened opened) (passed1.plain plain) plainSlot
    fun isSafe => ⟨(sure1 isSafe).1, _, (sure1 isSafe).2.1⟩).bind ?_
  intro _ s2 ⟨passed2, sure2⟩
  have both := passed1.trans passed2
  obtain ⟨declared, eq⟩ := passed2.building.declare nested (passed2.plain plainSlot) param.name
  refine .build ⟨(), _, rfl, _, ⟨⟨⟨declared, both.advances, both.waiting, both.nodup, both.loops⟩, both.opened⟩, eq⟩,
    fun isSafe => ⟨(sure2 isSafe).1, ?_⟩⟩
  obtain ⟨_, _, length1⟩ := sure1 isSafe
  have length2 := (sure2 isSafe).2
  show (s2.module.graph.code u.entry).length = _
  omega

private theorem params_finish {pairs : List (Param × ValueId)} (nested : 0 < scs.inner.length)
    (plain : ∀ pair ∈ pairs, s.module.graph.Plain pair.2)
    (ready : safe → s.module.graph.Typed ∧ (∀ pair ∈ pairs, pair.1.ty.isVoid = false) ∧
      (s.module.graph.code u.entry).length + 2 * pairs.length + 1 < InsertPoint.indexBound) :
    Finishes safe (pairs.forM fun pair => paramSlot pair.1 pair.2) s broken fun _ t =>
      ∃ scopes', (u.Passed scopes' st s u.entry t u.entry ∧
        scopes'.inner.length = scs.inner.length) ∧ (safe → t.module.graph.Typed ∧
          (t.module.graph.code u.entry).length + 1 < InsertPoint.indexBound) := by
  induction pairs generalizing scs s with
  | nil => exact .pure ⟨scs, ⟨.refl building, rfl⟩, fun isSafe => ⟨(ready isSafe).1, (ready isSafe).2.2⟩⟩
  | cons pair tl ih =>
    refine (paramSlot_finishes building opened nested (plain pair mem_cons_self) fun isSafe => ?_).bind ?_
    · obtain ⟨typed, notVoid, room⟩ := ready isSafe
      rw [length_cons] at room
      exact ⟨typed, notVoid pair mem_cons_self, by omega⟩
    · intro _ s1 ⟨scopes1, ⟨passed1, same1⟩, sure1⟩
      refine (ih passed1.building (passed1.opened opened) (same1 ▸ nested) (fun other mem =>
        passed1.plain (plain other (mem_cons_of_mem _ mem))) fun isSafe => ?_).mono (fun _ bad => bad) ?_
      · obtain ⟨_, notVoid, room⟩ := ready isSafe
        obtain ⟨typed, length⟩ := sure1 isSafe
        rw [length_cons] at room
        exact ⟨typed, fun other mem => notVoid other (mem_cons_of_mem _ mem), by omega⟩
      · intro _ t ⟨scopes2, ⟨passed2, same2⟩, sure2⟩
        exact ⟨scopes2, ⟨passed1.trans passed2, same2.trans same1⟩, sure2⟩

private theorem returnSlot_finishes (fresh : st.returnSlot = none) (ready : safe → s.module.graph.Typed ∧
      (s.module.graph.code u.entry).length + 1 < InsertPoint.indexBound) :
    Finishes safe (returnSlot ty) s broken fun slot t =>
      (∃ state', u.Passed scs state' s u.entry t u.entry ∧ state'.returnSlot = slot) ∧
        ((∀ v ∈ slot, t.module.graph.Plain v) ∧ slot.isNone = ty.isVoid) ∧
          (safe → t.module.graph.Typed ∧ ∀ v ∈ slot, ∃ pointee, t.module.graph.ty? v = some (.pointer pointee)) := by
  unfold returnSlot
  split
  next isVoid =>
    exact .pure ⟨⟨st, .refl building, fresh⟩, ⟨by simp, isVoid.symm⟩, fun isSafe => ⟨(ready isSafe).1, by simp⟩⟩
  next notVoid =>
    refine (entrySlot_finishes building opened fun isSafe =>
      ⟨(ready isSafe).1, by simpa using notVoid, (ready isSafe).2⟩).bind ?_
    intro slot s1 ⟨⟨passed1, plainSlot⟩, sure1⟩
    have noted : Finishes safe (build (Builder.setReturnSlot slot)) s1 broken fun _ t =>
        u.Passed scs { st with returnSlot := some slot } s u.entry t u.entry ∧
          t.module.graph = s1.module.graph :=
      .build ⟨(), _, rfl, ⟨⟨passed1.building.setReturnSlot plainSlot, passed1.advances, passed1.waiting, passed1.nodup,
        passed1.loops⟩, passed1.opened⟩, rfl⟩
    refine noted.bind ?_
    rintro _ s2 ⟨passed2, eq⟩
    rw [← eq] at plainSlot sure1
    refine .pure ⟨⟨_, passed2, rfl⟩, ⟨?_, by simpa using notVoid⟩, fun isSafe => ⟨(sure1 isSafe).1, ?_⟩⟩
    · rintro v isSlot
      cases isSlot
      exact plainSlot
    · rintro v isSlot
      cases isSlot
      exact ⟨_, (sure1 isSafe).2.1⟩

end Entry

structure Opened (base : Graph) (s : Lowering) (func : ValueId) (f : FuncDef)
    (args : List ValueId) : Prop where
  valid : base.Consistent
  contained : base.Contained
  added : Builder.FunctionAdded base s.module.graph func f.name f.ty (f.params.map (·.name)) args
  idle : s.module.current = none
  symbols : s.module.symbols.All s.module.graph.Plain
  nested : s.module.symbols.inner.length = 1
  callable : ∀ callee ∈ s.module.functions, s.module.graph.Plain callee
  loops : s.loops = []

def siteOf (base : Graph) (s : Lowering) (func : ValueId) : Site where
  base
  func
  entry := ⟨s.module.graph.values.size⟩
  functions := s.module.functions
  globals := s.module.globals
  outermost := s.module.symbols.outermost

section Body
variable {base : Graph} {fn : ValueId} {f : FuncDef} {args : List ValueId}
variable {exit body : ValueId} {returnTy ty : Ty} {slot : Option ValueId} {s0 : Lowering}

structure EntryMade (base : Graph) (s : Lowering) (func : ValueId) (after : Lowering) : Prop where
  loops : after.loops = s.loops
  added : Builder.BlockAdded s.module.graph after.module.graph (siteOf base s func).entry func (some "entry")
  same : after.module = { s.module with
    graph := after.module.graph, current := some { function := func, entry := (siteOf base s func).entry } }

private theorem createEntry_ends (opened : Opened base s fn f args) :
    Ends (build (Builder.createBlock fn (some "entry"))) s broken fun entry t =>
      entry = (siteOf base s fn).entry ∧ EntryMade base s fn t := by
  refine .build fun entry module done => ?_
  obtain ⟨added, current, eq, _, fresh⟩ := createBlock_ok opened.added.consistent done
  have isCurrent := fresh (by simp [opened.idle])
  have none : s.module.graph.operandsOf fn = [] :=
    opened.added.operandsOf_nil (Nat.le_of_eq (by rw [opened.added.fresh]))
  rw [added.operandsOf, if_pos rfl, none] at isCurrent
  have isNew : entry = (siteOf base s fn).entry := added.fresh
  subst isNew
  refine ⟨rfl, rfl, added, ?_⟩
  rw [isCurrent] at eq
  exact eq

theorem EntryMade.entered {s1 : Lowering} (made : EntryMade base s fn s1) (opened : Opened base s fn f args) :
    Ends (build (Builder.setInsertPoint (siteOf base s fn).entry)) s1 broken fun _ t =>
      t.loops = s.loops ∧
      (siteOf base s fn).Building s.module.symbols { function := fn, entry := (siteOf base s fn).entry }
        t.module (siteOf base s fn).entry ∧
      Builder.BlockAdded s.module.graph t.module.graph (siteOf base s fn).entry fn (some "entry") := by
  have added := made.added
  have eq := made.same
  have skel := opened.added.skeleton added
  have grows := added.grows (siteOf base s fn).entry ⟨_, opened.added.kind?⟩
  refine .build fun _ module done => ?_
  obtain rfl := (setInsertPoint_ok done).2
  refine ⟨made.loops, ?_, added⟩
  have symbols : s1.module.symbols = s.module.symbols := by rw [eq]
  have fs : s1.module.functions = s.module.functions := by rw [eq]
  refine ⟨⟨skel, ?_, ?_, ?_, fs, ?_, ?_⟩, ?_, symbols, ?_, rfl, rfl, ?_, ?_, rfl, skel.entry_mem⟩
  · show s1.module.symbols.All _
    rw [symbols]
    exact opened.symbols.mono fun _ plain => grows.plain plain
  · show s1.module.symbols.inner.length = _
    rw [symbols]
  · show s1.module.symbols.outermost = _
    rw [symbols]
    rfl
  · show s1.module.globals = _
    rw [eq]
    rfl
  · show ∀ callee ∈ s1.module.functions, _
    rw [fs]
    exact fun callee mem => grows.plain (opened.callable callee mem)
  · intro v above isReturn
    obtain ⟨d, hit, _⟩ := inst_of_opcode? isReturn
    obtain ⟨new, mem⟩ := skel.coded.homes v d above hit
    rw [added.code, opened.added.code_nil new] at mem
    cases mem
  · show s1.module.current = _
    rw [eq]
  · intro b isExit
    cases isExit
  · intro slot isSlot
    cases isSlot

theorem entry_ends {α : Type} {next : ValueId → Lower α} {final : α → Lowering → Prop}
    (opened : Opened base s fn f args)
    (tl : ∀ t, t.loops = s.loops →
      (siteOf base s fn).Building s.module.symbols { function := fn, entry := (siteOf base s fn).entry }
        t.module (siteOf base s fn).entry →
      Builder.BlockAdded s.module.graph t.module.graph (siteOf base s fn).entry fn (some "entry") →
      Ends (next (siteOf base s fn).entry) t broken final) :
    Ends (do
      let entry ← build (Builder.createBlock fn (some "entry"))
      build (Builder.setInsertPoint entry)
      next entry) s broken final := by
  refine (createEntry_ends opened).bind ?_
  rintro _ s1 ⟨rfl, made⟩
  refine (made.entered opened).bind ?_
  rintro _ s2 ⟨loops, building, added⟩
  exact tl s2 loops building added

theorem setFunctionExit_ends (building : u.Building scs st s.module here)
    (mem : exit ∈ s.module.graph.layout u.func) :
    Ends (build (Builder.setFunctionExit exit)) s broken fun _ t =>
      u.Building scs { st with exit := some exit } t.module here ∧
        t.module.graph = s.module.graph ∧ t.loops = s.loops := by
  refine .build fun _ module done => ?_
  obtain rfl := modify_ok.1 done
  exact ⟨building.setExit mem, rfl, rfl⟩

private theorem return_finishes {α : Type} {found : α} (returning : u.Returning scs st s.module here exit) (ok : u.base.Consistent)
    (contained : u.base.Contained) (plain : ∀ v ∈ slot, s.module.graph.Plain v)
    (isTy : s.module.graph.ty? u.func = some ty) (returns : ty.returnType? = some returnTy)
    (isVoid : slot.isNone = returnTy.isVoid) (ready : safe → s.module.graph.Typed ∧
      ∀ v ∈ slot, ∃ pointee, s.module.graph.ty? v = some (.pointer pointee)) :
    Finishes safe (do
      build (Builder.moveBlockToEnd u.func exit)
      build (Builder.setInsertPoint exit)
      let res ← build (slot.mapM Builder.load)
      let _ ← build (Builder.ret res)
      return found) s broken fun val t => val = found ∧
        (u.Intact scs.inner.length t.module ∧ (safe → t.module.graph.Typed)) ∧
          s.module.graph.Grows u.entry t.module.graph ∧ t.module.graph.exits exit = [] ∧
            t.module.graph.WellFormed u.func ∧ t.module.graph.Shaped u.func ∧
              t.module.graph.Passable u.func := by
  have consistent := returning.building.skeleton.consistent
  have moved : Finishes safe (build (Builder.moveBlockToEnd u.func exit)) s broken fun _ t =>
      (u.Returning scs st t.module here exit ∧ s.module.graph.Grows u.entry t.module.graph ∧
        (t.module.graph.layout u.func).getLast? = some exit) ∧ (safe → t.module.graph.Typed) := by
    obtain ⟨d, isFn⟩ := returning.building.skeleton.laid.function
    obtain ⟨_, module, done, _⟩ := moveBlockToEnd_runs consistent (lt_of_kind? isFn) exit
    obtain ⟨wired, _⟩ := moveBlockToEnd_ok consistent done
    obtain ⟨building, grows, kinds, layout⟩ :=
      returning.building.moveBlockToEnd returning.inside returning.notEntry done
    refine .build ⟨_, module, done, ⟨returning.grown building grows ?_ ?_, grows, ?_⟩,
      fun isSafe => (ready isSafe).1.rewired wired⟩
    · intro b
      rw [layout]
      exact ((perm_append_singleton _ _).trans (perm_cons_erase returning.inside).symm).mem_iff
    · have eq : module.graph.lastOf exit = s.module.graph.lastOf exit :=
        lastOf_congr (by rw [Graph.code, kinds, ← Graph.code]) fun v _ => by rw [Graph.opcode?, kinds, ← Graph.opcode?]
      exact eq.trans returning.opened
    · show (module.graph.layout u.func).getLast? = some exit
      rw [layout, getLast?_concat]
  refine moved.bind ?_
  rintro _ s1 ⟨⟨returning1, grows1, final⟩, typed1⟩
  have ent : Finishes safe (build (Builder.setInsertPoint exit)) s1 broken fun _ t =>
      u.Returning scs st t.module exit exit ∧ t.module.graph = s1.module.graph := by
    obtain ⟨b, hb⟩ := returning1.building.skeleton.block_of_mem returning1.inside
    obtain ⟨_, module, done, _⟩ := setInsertPoint_runs hb
    obtain ⟨building, eq⟩ := returning1.building.entered returning1.inside done
    refine .build ⟨_, module, done, returning1.grown building (eq ▸ .refl _ _) (fun b => by rw [eq]) ?_, eq⟩
    rw [eq]
    exact returning1.opened
  refine ent.bind ?_
  rintro _ s2 ⟨returning2, same2⟩
  have grows2 : s.module.graph.Grows u.entry s2.module.graph := by
    rw [same2]
    exact grows1
  have loaded : Finishes safe (build (slot.mapM Builder.load)) s2 broken fun res t =>
      (u.Straight scs st s2.module t.module exit ∧ res.isNone = slot.isNone ∧
        ∀ v ∈ res.toList, t.module.graph.Plain v) ∧ (safe → t.module.graph.Typed) := by
    have building := returning2.building
    cases slot with
    | none => exact .build (.pure ⟨⟨.refl building, rfl, by simp⟩, fun isSafe => same2 ▸ typed1 isSafe⟩)
    | some v =>
      have ends : Ends (build ((some v).mapM Builder.load)) s2 broken fun res t =>
          u.Straight scs st s2.module t.module exit ∧ res.isNone = false ∧
            ∀ v ∈ res.toList, t.module.graph.Plain v := by
        refine .build fun res module done => ?_
        obtain ⟨val, loading, rfl⟩ := map_ok.1 done
        obtain ⟨str, plainValue⟩ := Site.upkeep.load building (grows2.plain (plain v rfl)) loading
        exact ⟨str, rfl, by simpa using plainValue⟩
      have runs : safe → Builder.Runs ((some v).mapM Builder.load) s2.module fun _ last => last.graph.Typed := by
        intro isSafe
        obtain ⟨pointee, points⟩ := (ready isSafe).2 v rfl
        have fill : u.Fillable scs st s2.module exit :=
          ⟨building, returning2.opened, same2 ▸ typed1 isSafe⟩
        obtain ⟨val, module, loading, _, typed, _⟩ :=
          fill.load (grows2.plain (plain v rfl)) (grows2.ty? _ _ points) rfl
        exact ⟨some val, module, map_ok.2 ⟨val, loading, rfl⟩, typed⟩
      exact .of_ends runs ends
  refine loaded.bind ?_
  rintro res s3 ⟨⟨str, isNone, plainResult⟩, typed3⟩
  have returning3 := returning2.grown str.building str.advances.grows
    (fun b => by rw [str.layout]) (str.opened returning2.opened)
  have arg : if returnTy.isVoid then res.toList = [] else ∃ val, res.toList = [val] := by
    rw [← isVoid, ← isNone]
    cases res with
    | none => rfl
    | some val => exact ⟨val, rfl⟩
  have building := returning3.building
  have returned : Finishes safe (build (Builder.ret res)) s3 broken fun _ t =>
      (u.Intact scs.inner.length t.module ∧ (safe → t.module.graph.Typed)) ∧
        s.module.graph.Grows u.entry t.module.graph ∧ t.module.graph.exits exit = [] ∧
          t.module.graph.WellFormed u.func ∧ t.module.graph.Shaped u.func ∧
            t.module.graph.Passable u.func := by
    obtain ⟨b, hb⟩ := building.skeleton.block_of_mem building.member
    obtain ⟨ret, module, done, put⟩ := insertInst_runs building.skeleton.consistent building.point hb
      (Nat.le_of_eq (by rw [code_of_kind? hb])) (by simp [returning3.opened])
      fun v mem => (plainResult v mem).inside
    obtain ⟨skel, h⟩ := returning3.shaped ok contained put
      (by rw [str.layout, same2]; exact final) (str.advances.grows.ty? _ _ (grows2.ty? _ _ isTy))
      returns arg
    exact .build ⟨ret, module, done, ⟨building.toIntact.grown skel (put.grows u.entry rfl)
      (Site.sameNames_inserted put), fun isSafe => (typed3 isSafe).inserted put fun isSlot => by cases isSlot⟩,
        (grows2.trans str.advances.grows).trans (put.grows u.entry rfl), h⟩
  refine returned.bind ?_
  intro _ t h
  exact .pure ⟨rfl, h⟩

structure Entered (safe : Prop) (site : Site) (scopes : ScopeTable ValueId) (state : FunctionState)
    (start s : Lowering) (body exit : ValueId) (returnTy : Ty) : Prop where
  reached : site.Reached scopes state start site.entry s body [exit]
  leaves : state.exit = some exit
  isVoid : state.returnSlot.isNone = returnTy.isVoid
  entryJump : ∃ last, s.module.graph.lastOf site.entry = some last ∧
    s.module.graph.opcode? last = some .jmp
  exitName : s.module.graph.blockName? exit = some "func_exit"
  opened : s.module.graph.lastOf body = none
  apart : body ≠ site.entry
  leads : body ∈ s.module.graph.exits site.entry
  ready : safe → s.module.graph.Typed ∧
    ∀ v ∈ state.returnSlot, ∃ pointee, s.module.graph.ty? v = some (.pointer pointee)

private theorem blockName?_blockAdded {g t : Graph} {n : Option String}
    (added : Builder.BlockAdded g t b fn n) : t.blockName? b = n := by
  rw [Graph.blockName?, added.kind?, if_pos rfl]

private theorem prologue_finishes {α : Type} {pairs : List (Param × ValueId)} {final : α → Lowering → Prop} (returnTy : Ty)
    (next : Option ValueId → ValueId → Lower α) (building : u.Building scs st s.module u.entry) (opened : s.module.graph.lastOf u.entry = none)
    (nested : 0 < scs.inner.length) (fresh : st.returnSlot = none)
    (plain : ∀ pair ∈ pairs, s.module.graph.Plain pair.2)
    (ready : safe → s.module.graph.Typed ∧ (∀ pair ∈ pairs, pair.1.ty.isVoid = false) ∧
      (s.module.graph.code u.entry).length + 2 * pairs.length + 1 < InsertPoint.indexBound)
    (tl : ∀ scopes' state' t body exit, Entered safe u scopes' state' s t body exit returnTy →
      scopes'.inner.length = scs.inner.length → Finishes safe (next state'.returnSlot exit) t broken final) :
    Finishes safe (do
      pairs.forM fun pair => paramSlot pair.1 pair.2
      let slot ← returnSlot returnTy
      let exit ← build (Builder.createBlock u.func (some "func_exit"))
      build (Builder.setFunctionExit exit)
      let body ← build (Builder.createBlock u.func (some "body"))
      let _ ← build (Builder.jump body)
      build (Builder.setInsertPoint body)
      next slot exit) s broken final := by
  refine (params_finish building opened nested plain ready).bind ?_
  rintro _ s2 ⟨scopes2, ⟨passed2, same2⟩, sure2⟩
  refine (returnSlot_finishes passed2.building (passed2.opened opened) fresh sure2).bind ?_
  rintro _ s3 ⟨⟨state3, passed3, rfl⟩, ⟨plainSlot, isVoid⟩, sure3⟩
  refine (createBlock_finishes passed3.building fun isSafe => (sure3 isSafe).1).bind ?_
  rintro exit s4 ⟨⟨reached4, exitAdded⟩, typed4⟩
  have toExit := (passed2.toReached.trans passed3.toReached).trans reached4
  have noted : Finishes safe (build (Builder.setFunctionExit exit)) s4 broken fun _ t =>
      u.Reached scopes2 { state3 with exit := some exit } s u.entry t u.entry [exit] ∧
        t.module.graph = s4.module.graph :=
    .build ⟨(), _, rfl, ⟨reached4.building.setExit exitAdded.mem_layout, toExit.advances, toExit.waiting, toExit.nodup,
      toExit.loops⟩, rfl⟩
  refine noted.bind ?_
  rintro _ s5 ⟨reached5, same5⟩
  refine (createBlock_finishes reached5.building (same5 ▸ typed4)).bind ?_
  rintro body s6 ⟨⟨reached6, bodyAdded⟩, typed6⟩
  have opened6 : s6.module.graph.lastOf u.entry = none := by
    rw [bodyAdded.lastOf, same5, exitAdded.lastOf]
    exact passed3.opened (passed2.opened opened)
  have jumped : Finishes safe (build (Builder.jump body)) s6 broken fun _ t =>
      (u.Turned scopes2 { state3 with exit := some exit } s6 u.entry t [body] ∧
        ∃ last, t.module.graph.lastOf u.entry = some last ∧ t.module.graph.opcode? last = some .jmp) ∧
          (safe → t.module.graph.Typed) := by
    refine (Finishes.of_ends (fun isSafe => Site.Fillable.jump ⟨reached6.building, opened6, typed6 isSafe⟩
      bodyAdded.mem_layout) (.build fun _ _ done => ?_)).mono (fun _ bad => bad) fun _ _ ⟨turned, sure⟩ =>
        ⟨turned, fun isSafe => (sure isSafe).2⟩
    have ended := reached6.building.jump bodyAdded.mem_layout done
    exact ⟨ended.turned, ended.last⟩
  refine jumped.bind ?_
  rintro _ s7 ⟨⟨turned, last, isLast, isJump⟩, typed7⟩
  have toBody := ((reached5.trans reached6).trans turned.reached).perm (List.Perm.swap body exit [])
  refine (setInsertPoint_finishes toBody ⟨last, isLast⟩).bind ?_
  rintro _ s8 ⟨reached8, blank, same8⟩
  have grows : s4.module.graph.Grows u.entry s8.module.graph := by
    rw [same8, ← same5]
    exact reached6.advances.grows.trans turned.reached.advances.grows
  refine tl scopes2 { state3 with exit := some exit } s8 body exit ⟨reached8, rfl, isVoid, ?_,
    grows.blockName? (blockName?_blockAdded exitAdded), lastOf_of_blank blank,
    (toBody.waiting body mem_cons_self).notEntry, ?_, fun isSafe => ⟨same8 ▸ typed7 isSafe, ?_⟩⟩ same2
  · rw [same8]
    exact ⟨last, isLast, isJump⟩
  · rw [same8]
    exact (turned.exits body).2 (by simp)
  · intro v isSlot
    obtain ⟨pointee, isTy⟩ := (sure3 isSafe).2 v isSlot
    exact ⟨pointee, grows.ty? _ _ (reached4.advances.grows.ty? _ _ isTy)⟩

theorem Entered.returning {t : Lowering} {there : ValueId} {scopes' : ScopeTable ValueId}
    (ent : Entered safe u scs st s0 s body exit returnTy)
    (first : u.base.Skeleton s0.module.graph u.func u.entry)
    (alone : s0.module.graph.layout u.func = [u.entry])
    (entryName : s0.module.graph.blockName? u.entry = some "entry")
    (path : u.Reached scopes' st s body t there [])
    (last : ∃ i, t.module.graph.lastOf there = some i) (arrives : t.module.graph.Reaches body exit) :
    u.Returning scopes' st t.module there exit := by
  have full := ent.reached.trans path
  have waits := full.waiting exit (by simp)
  have grows := path.advances.grows
  have skel := path.building.skeleton
  have above : ∀ b ∈ t.module.graph.layout u.func, u.base.values.size ≤ b.index :=
    fun b mem => ((skel.laid.blocks b).1 mem).1
  have begins := grows.exits_mono skel.coded (above _ skel.entry_mem) ent.leads
  refine ⟨path.building, waits.inside, waits.notEntry, ?_, ?_, full.advances.grows.blockName? entryName,
    grows.blockName? ent.exitName, ?_, lastOf_of_blank waits.blank, .trans (.next .start begins) arrives⟩
  · intro b mem notExit
    cases ends : t.module.graph.lastOf b with
    | some last => exact ⟨last, rfl⟩
    | none =>
      rcases full.advances.closed b mem ends with rfl | isPending | ⟨old, notEntry⟩
      · obtain ⟨i, isLast⟩ := last
        rw [isLast] at ends
        cases ends
      · exact absurd (by simpa using isPending) notExit
      · rw [alone] at old
        exact absurd (mem_singleton.1 old) notEntry
  · obtain ⟨jump, isLast, isJump⟩ := ent.entryJump
    exact ⟨jump, grows.lastOf skel.coded (above _ skel.entry_mem) isLast, grows.opcode? isJump⟩
  · intro b mem
    rcases Nat.lt_or_ge b.index s0.module.graph.values.size with old | new
    · have hb := ((skel.laid.blocks b).1 mem).2
      rw [full.advances.grows.isBlock old] at hb
      have isIn := (first.laid.blocks b).2 ⟨above b mem, hb⟩
      rw [alone, mem_singleton] at isIn
      exact Nat.le_of_eq (by rw [isIn])
    · have lt := lt_of_isBlock ((first.laid.blocks u.entry).1 first.entry_mem).2
      exact Nat.le_of_lt (Nat.lt_of_lt_of_le lt new)

structure Harmless (defs : List FuncDef) (s : Lowering) (f : FuncDef) : Prop where
  typed : s.module.graph.Typed
  callees : Site.Callees defs s.module
  params : ∀ param ∈ f.params, param.ty.isVoid = false
  body : Sensible defs f.body.decls f.body.exprs
  short : f.params.length < 2 ^ 63

theorem Entered.finishes {mode : Mode} {content : Stmt}
    (ent : Entered mode.safe u scs st s0 s body exit returnTy)
    (first : u.base.Skeleton s0.module.graph u.func u.entry)
    (alone : s0.module.graph.layout u.func = [u.entry])
    (entryName : s0.module.graph.blockName? u.entry = some "entry") (ok : u.base.Consistent)
    (contained : u.base.Contained) (outside : s0.loops = []) (nested : 0 < scs.inner.length)
    (isTy : s0.module.graph.ty? u.func = some ty) (returns : ty.returnType? = some returnTy)
    (sensible : mode.safe → Site.Callees mode.defs s.module ∧ Sensible mode.defs content.decls content.exprs) :
    Finishes mode.safe (do
      let found ← outermostStretches content
      jumpUnlessTerminated exit
      build (Builder.moveBlockToEnd u.func exit)
      build (Builder.setInsertPoint exit)
      let res ← build (st.returnSlot.mapM Builder.load)
      let _ ← build (Builder.ret res)
      return found) s
      (fun t => u.Intact scs.inner.length t.module ∧ (mode.safe → t.module.graph.Typed))
      fun found t =>
        (u.Intact scs.inner.length t.module ∧ (mode.safe → t.module.graph.Typed)) ∧
          (∀ m ∈ found, s0.module.graph.values.size ≤ m.first ∧ t.module.graph.Skips u.entry m) ∧
            t.module.graph.WellFormed u.func ∧ t.module.graph.Shaped u.func ∧
              t.module.graph.Passable u.func := by
  have building := ent.reached.building
  obtain rfl := building.names
  have loops : s.loops = [] := ent.reached.loops.trans outside
  have filling : u.Filling s.module.symbols st s body :=
    ⟨building, by simp [loops], nested, by rw [ent.leaves]; rfl⟩
  have waits := ent.reached.waiting exit mem_cons_self
  let front : u.Front st mode := ⟨s, body, filling, ent.opened, fun isSafe =>
    ⟨(ent.ready isSafe).1, ent.apart, (sensible isSafe).1, (ent.ready isSafe).2⟩⟩
  have laws := u.basic_controls st mode filling.leaves
  have aim : (u.basic st mode).Aim front front exit := ⟨waits.inside, .inr (by simp [Site.aims, ent.leaves])⟩
  obtain ⟨_, lowered⟩ := laws.outermost (p := front) content ⟨fun d mem isSafe => (sensible isSafe).2.notVoid d mem,
    fun e mem call called isSafe f => (sensible isSafe).2.fit e mem call called f⟩
  refine laws.part (laws.past (laws.refl front)) aim lowered fun found r t _ left told => ?_
  have path := left.reached
  have grows := path.advances.grows
  have arrives := left.arrives (by simp [Site.aims, ent.leaves, show front.s.loops = [] from loops])
  have returning := ent.returning first alone entryName path left.turned.last arrives
  refine (return_finishes returning ok contained
    (fun v isSlot => grows.plain (building.returnSlot v isSlot))
    (grows.ty? _ _ (ent.reached.advances.grows.ty? _ _ isTy)) returns ent.isVoid fun isSafe =>
      ⟨left.typed isSafe, fun v isSlot => ?_⟩).mono (fun _ bad => bad) ?_
  · obtain ⟨pointee, points⟩ := (ent.ready isSafe).2 v isSlot
    exact ⟨pointee, grows.ty? _ _ points⟩
  · rintro _ final ⟨rfl, ⟨intact, typed⟩, grows', left', wf⟩
    refine ⟨⟨left.past.undone intact, typed⟩, fun m mem => ?_, wf⟩
    obtain ⟨jump, isLast, _⟩ := ent.entryJump
    obtain ⟨began, isSealed⟩ := told m mem
    refine ⟨Nat.le_trans ent.reached.advances.grows.size (Nat.le_of_lt began), ?_⟩
    exact returning.skips (isSealed.skips building.skeleton path.building.skeleton grows isLast began) isSealed.last
      intact.skeleton grows' left'

theorem bodyStretches_finishes (mode : Mode) (opened : Opened base s fn f args)
    (harmless : mode.safe → Harmless mode.defs s f) : Finishes mode.safe (bodyStretches fn f) s
      (fun t => (siteOf base s fn).Intact s.module.symbols.inner.length t.module ∧
        (mode.safe → t.module.graph.Typed)) fun found t =>
        ((siteOf base s fn).Intact s.module.symbols.inner.length t.module ∧
          (mode.safe → t.module.graph.Typed)) ∧ (∀ m ∈ found, s.module.graph.values.size ≤ m.first ∧
            t.module.graph.Skips (siteOf base s fn).entry m) ∧
            t.module.graph.WellFormed fn ∧ t.module.graph.Shaped fn ∧ t.module.graph.Passable fn := by
  refine (Finishes.of_ends (fun isSafe => createBlock_runs opened.added.consistent
    ((harmless isSafe).typed.unlimited opened.added.kind? (.inr rfl))) (createEntry_ends opened)).bind ?_
  rintro _ s0 ⟨⟨rfl, made⟩, _⟩
  have hb := (made.added.kind? (siteOf base s fn).entry).trans (if_pos rfl)
  refine (Finishes.of_ends (fun _ => setInsertPoint_runs hb) (made.entered opened)).bind ?_
  rintro _ s1 ⟨⟨loops1, building, entryAdded⟩, _⟩
  have grows := entryAdded.grows (siteOf base s fn).entry ⟨_, opened.added.kind?⟩
  have into : fn.index < s.module.graph.values.size := lt_of_kind? opened.added.kind?
  have isFn : s1.module.graph.kind? fn = some (.function ⟨f.name, args⟩) := by
    rw [entryAdded.kind?, if_neg (entryAdded.ne_of_lt into), opened.added.kind?]
  refine Finishes.ask (function_eq_ok.2 isFn) ?_
  have alone : s1.module.graph.layout fn = [(siteOf base s fn).entry] := by
    rw [Graph.layout, entryAdded.operandsOf, if_pos rfl,
      opened.added.operandsOf_nil (Nat.le_of_eq (by rw [opened.added.fresh]))]
    rfl
  have blank : s1.module.graph.code (siteOf base s fn).entry = [] := entryAdded.code_self
  have plain : ∀ pair ∈ f.params.zip args, s1.module.graph.Plain pair.2 := fun pair mem =>
    grows.plain (opened.added.plain_arg (of_mem_zip mem).2)
  have nested : 0 < s.module.symbols.inner.length := by
    rw [opened.nested]
    exact Nat.zero_lt_one
  have room : mode.safe → (s1.module.graph.code (siteOf base s fn).entry).length + 2 * (f.params.zip args).length + 1 <
      InsertPoint.indexBound := by
    intro isSafe
    have fewer : (f.params.zip args).length ≤ f.params.length := by
      rw [length_zip]
      exact Nat.min_le_left _ _
    have short := (harmless isSafe).short
    have lt : InsertPoint.indexBound = 2 * 2 ^ 63 := rfl
    rw [blank, lt, length_nil]
    omega
  refine @prologue_finishes (siteOf base s fn) _ _ s1 _ _ _ _ _ f.returnType (fun slot exit => do
      let found ← outermostStretches f.body
      jumpUnlessTerminated exit
      build (Builder.moveBlockToEnd fn exit)
      build (Builder.setInsertPoint exit)
      let res ← build (slot.mapM Builder.load)
      let _ ← build (Builder.ret res)
      return found) building (lastOf_of_blank blank) nested rfl plain (fun isSafe =>
        ⟨(harmless isSafe).typed.blockAdded entryAdded,
          fun pair mem => (harmless isSafe).params pair.1 (of_mem_zip mem).1, room isSafe⟩) ?_
  intro scopes' state' t body exit ent eq
  rw [← eq]
  have fs : t.module.functions = s.module.functions := ent.reached.building.functions
  have callees := fun isSafe => (harmless isSafe).callees.grown fs (grows.trans ent.reached.advances.grows)
  refine (ent.finishes building.skeleton alone (blockName?_blockAdded entryAdded) opened.valid opened.contained
    (loops1.trans opened.loops) (eq ▸ nested) (grows.ty? _ _ opened.added.ty?) rfl fun isSafe =>
      ⟨callees isSafe, (harmless isSafe).body⟩).mono (fun _ bad => bad) fun found t ended => ?_
  exact ⟨ended.1, fun m mem => (ended.2.1 m mem).imp_left (Nat.le_trans grows.size), ended.2.2⟩

theorem functionBody_finishes (mode : Mode) (opened : Opened base s fn f args)
    (harmless : mode.safe → Harmless mode.defs s f) : Finishes mode.safe (functionBody fn f) s
      (fun t => (siteOf base s fn).Intact s.module.symbols.inner.length t.module ∧
        (mode.safe → t.module.graph.Typed)) fun _ t =>
        ((siteOf base s fn).Intact s.module.symbols.inner.length t.module ∧
          (mode.safe → t.module.graph.Typed)) ∧ t.module.graph.WellFormed fn ∧
            t.module.graph.Shaped fn ∧ t.module.graph.Passable fn := by
  rw [functionBody_eq_stretches, map_eq_pure_bind]
  exact (bodyStretches_finishes mode opened harmless).bind fun _ _ ended => .pure ⟨ended.1, ended.2.2⟩

theorem functionBody_ends (opened : Opened base s fn f args) :
    Ends (functionBody fn f) s ((siteOf base s fn).Intact s.module.symbols.inner.length ·.module) fun _ t =>
        (siteOf base s fn).Intact s.module.symbols.inner.length t.module ∧
          t.module.graph.WellFormed fn ∧ t.module.graph.Shaped fn ∧ t.module.graph.Passable fn :=
  (functionBody_finishes .loose opened False.elim).ends.mono (fun _ intact => intact.1) fun _ _ ended =>
    ⟨ended.1.1, ended.2⟩

end Body

end Lower
end Midend
