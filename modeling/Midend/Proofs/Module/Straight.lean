import Midend.Proofs.Module.Building

/-! What the steps of the builder do to a function that is being built. -/
namespace Midend.Site
open List Graph
open Builder
variable {u : Site} {scs : ScopeTable ValueId} {st : FunctionState} {m t : Module}
  {here : ValueId}
variable {i dest slot : ValueId} {ty : Ty} {d : Block} {n : Option String} {res : Unit}

structure Ended (site : Site) (scopes : ScopeTable ValueId) (state : FunctionState)
    (m after : Module) (here : ValueId) (op : Opcode) (targets : List ValueId) : Prop where
  building : site.Building scopes state after here
  advances : site.Advances m.graph here after.graph here []
  last : ∃ inst, after.graph.lastOf here = some inst ∧ after.graph.opcode? inst = some op
  layout : after.graph.layout site.func = m.graph.layout site.func
  exits : after.graph.exits here = targets

theorem Ended.closed {op : Opcode} {dests : List ValueId} (ended : u.Ended scs st m t here op dests) :
    ∃ i, t.graph.lastOf here = some i :=
  ended.last.imp fun _ isLast => isLast.1

section Insert
variable {i : ValueId} {op : Opcode} {ty : Ty} {ops : List ValueId} {attr : Attr}
  {pt : InsertPoint} {d : Block}

theorem Building.layout_inserted (building : u.Building scs st m here)
    (put : Inserted m t i op ty ops attr pt d) :
    t.graph.layout u.func = m.graph.layout u.func := by
  obtain ⟨f, isFn⟩ := building.skeleton.laid.function
  exact put.layout (lt_of_kind? isFn)

private theorem Building.noReturn_inserted (building : u.Building scs st m here)
    (put : Inserted m t i op ty ops attr pt d) (notReturn : op ≠ .ret) :
    ∀ v, u.base.values.size ≤ v.index → t.graph.opcode? v ≠ some .ret := by
  intro v above
  by_cases isInst : v = i
  · rw [isInst, put.opcode?_self]
    exact fun eq => notReturn (Option.some.inj eq)
  · rw [put.opcode? isInst]
    exact building.noReturn v above

theorem sameNames_inserted (put : Inserted m t i op ty ops attr pt d) : SameNames m t := by
  rw [put.module]
  exact ⟨rfl, rfl, rfl, rfl⟩

theorem Building.inserted (building : u.Building scs st m here)
    (put : Inserted m t i op ty ops attr pt d) (inner : op.isTerminator = false)
    (notSlot : op ≠ .alloca) (plain : ∀ v ∈ ops, m.graph.Plain v) :
    u.Straight scs st m t here ∧ t.graph.Plain i := by
  obtain rfl := building.point_eq put
  have grows := put.grows u.entry rfl
  have layout := building.layout_inserted put
  have cs := put.code_end rfl
  have skel := put.skeleton building.skeleton building.member
    (fun ends => absurd ends (by simp [inner])) (fun isSlot => absurd isSlot notSlot)
    (fun _ v mem => (plain v mem).notBlock)
    (fun isBranch => by rw [isBranch] at inner; cases inner)
    (by
      intro dest goes
      have none : targetOperands op ops = [] := by
        cases op with
        | jmp => cases inner
        | br => cases inner
        | _ => rfl
      rw [none] at goes
      cases goes)
  have advances : u.Advances m.graph here t.graph here [] := by
    refine .single grows layout ?_
    intro b notHere _
    rw [put.code, if_neg notHere]
  refine ⟨⟨?_, advances, layout, ?_⟩, plain_of_kind? put.kind?_self rfl⟩
  · refine building.grown skel (building.noReturn_inserted put ?_) grows (layout ▸ List.Subset.refl _)
      (sameNames_inserted put) ?_ (by rw [layout]; exact building.member)
    · rintro rfl
      cases inner
    · rw [put.module, cs]
      simp
  · intro _
    rw [Graph.lastOf, cs, getLast?_concat, Option.filter_some, if_neg]
    rw [isTerminator_of_opcode? put.opcode?_self, inner]
    simp

/-- Ending a block keeps the function under construction. -/
theorem Building.ended (building : u.Building scs st m here) {dests : List ValueId}
    (done : Closed m t i op ops dests pt d) (last : op.isTerminator)
    (notReturn : op ≠ .ret) (leads : targetOperands op ops = dests)
    (into : ∀ dest ∈ dests, dest ∈ m.graph.layout u.func)
    (cond : op = .br → ∀ v ∈ ops.head?, m.graph.Plain v) :
    u.Ended scs st m t here op dests := by
  obtain ⟨mid, put, linked, eq⟩ := done.inserted
  obtain rfl := building.point_eq put
  have layout := building.layout_inserted put
  have skel := put.skeleton building.skeleton building.member (fun _ => rfl)
    (fun isSlot => by rw [isSlot] at last; cases last) (fun inner => by rw [inner] at last; cases last)
    (fun isBranch v first => (cond isBranch v first).notBlock) (by rw [leads]; exact into)
  have inside' : ∀ dest ∈ dests, dest ∈ mid.graph.layout u.func := by
    rwa [layout]
  have notInst : ∀ v d, mid.graph.kind? v = some (.inst d) → v ∉ dests := by
    intro v d hit goes
    obtain ⟨b, hb⟩ := skel.block_of_mem (inside' v goes)
    cases hb.symm.trans hit
  have grows := (put.grows u.entry rfl).trans (linked.grows u.entry fun v d hit =>
    append_edges (notInst v d hit) _ _)
  have cs : ∀ b, t.graph.code b = mid.graph.code b := by
    intro b
    rw [Graph.code, linked.kind?, Graph.code]
  have opcode : ∀ v, t.graph.opcode? v = mid.graph.opcode? v := by
    intro v
    rw [Graph.opcode?, linked.kind?, Graph.opcode?]
  have layout' : t.graph.layout u.func = m.graph.layout u.func := by
    rw [← layout, Graph.layout, linked.operandsOf, append_edges, Graph.layout]
    intro goes
    have hb := ((skel.laid.blocks u.func).1 (inside' _ goes)).2
    rw [skel.isBlock_func] at hb
    cases hb
  have ns : SameNames m t := by
    rw [eq, put.module]
    exact ⟨rfl, rfl, rfl, rfl⟩
  have advances : u.Advances m.graph here t.graph here [] := by
    refine .single grows layout' ?_
    intro b notHere _
    rw [cs, put.code, if_neg notHere]
  have isLast : t.graph.lastOf here = some i := by
    rw [Graph.lastOf, cs, put.code_end rfl, getLast?_concat, Option.filter_some, if_pos]
    rw [Graph.isTerminator, opcode, put.opcode?_self]
    exact last
  refine ⟨?_, advances, ⟨i, isLast, by rw [opcode, put.opcode?_self]⟩, layout', ?_⟩
  · refine building.grown (skel.edges linked inside') ?_ grows (layout' ▸ List.Subset.refl _) ns ?_
      (by rw [layout']; exact building.member)
    · intro v above
      rw [opcode]
      exact building.noReturn_inserted put notReturn v above
    · rw [cs, put.code_end rfl, eq, put.module]
      simp
  · rw [Graph.exits, isLast, ← leads, ← put.targetsOf_self]
    show t.graph.targetsOf i = mid.graph.targetsOf i
    rw [Graph.targetsOf, Graph.targetsOf, opcode, linked.operandsOf, append_edges (notInst i _ put.kind?_self)]

end Insert

theorem Building.jump (building : u.Building scs st m here) (into : dest ∈ m.graph.layout u.func)
    (done : Builder.jump dest m = .ok (i, t)) : u.Ended scs st m t here .jmp [dest] := by
  obtain ⟨_, pt, d, closed⟩ := jump_ok building.skeleton.consistent done
  exact building.ended closed rfl (by decide) rfl (by simpa using into) (fun isBranch => by cases isBranch)

theorem Building.branch (building : u.Building scs st m here) {cond thenBlock elseBlock : ValueId}
    (plain : m.graph.Plain cond) (thenInside : thenBlock ∈ m.graph.layout u.func)
    (elseInside : elseBlock ∈ m.graph.layout u.func)
    (done : Builder.branch cond thenBlock elseBlock m = .ok (i, t)) :
    u.Ended scs st m t here .br [thenBlock, elseBlock] := by
  obtain ⟨_, pt, d, closed⟩ := branch_ok building.skeleton.consistent done
  refine building.ended closed rfl (by decide) rfl ?_ ?_
  · intro dest goes
    rcases mem_cons.1 goes with rfl | goes
    · exact thenInside
    · exact mem_singleton.1 goes ▸ elseInside
  · intro _ v first
    cases first
    exact plain

theorem Building.added (building : u.Building scs st m here) {v : ValueId} {k : Kind} {lim : Option Nat}
    (done : addValue k ty lim m = .ok (v, t)) (free : k.values = []) :
    u.Straight scs st m t here ∧ t.graph.Plain v := by
  obtain ⟨rfl, rfl⟩ := addValue_ok.1 done
  have nb := Kind.isBlock_of_values free
  have notInst := Kind.isInst_of_values free
  have added := building.skeleton.consistent.add_added k ty lim
  have empty : k.insts = [] := by
    cases k with
    | block d => cases nb
    | _ => rfl
  have cs := added.code empty
  have grows := added.grows u.entry nb
  have layout : (m.graph.add k ty lim).2.layout u.func = m.graph.layout u.func := by
    rw [Graph.layout, added.operandsOf, Graph.layout]
  have notOp : k.opcode? = none := by
    cases k with
    | inst d => cases notInst
    | _ => rfl
  refine ⟨⟨?_, .single grows layout fun b _ _ => cs b, layout, ?_⟩, ?_⟩
  · refine building.grown (building.skeleton.added added free) ?_ grows
      (layout ▸ List.Subset.refl _) ⟨rfl, rfl, rfl, rfl⟩ ?_ (by rw [layout]; exact building.member)
    · intro v above
      rw [Graph.opcode?, added.kind? v]
      split
      · rw [Option.bind_some, notOp]
        simp
      · exact building.noReturn v above
    · rw [cs]
      exact building.point
  · intro ho
    rw [lastOf_congr (cs here), ho]
    intro v mem
    obtain ⟨_, d, hit, _⟩ := building.skeleton.coded.listed here v building.here_above mem
    rw [opcode?_eq hit, opcode?_eq (added.kind?_of_some hit)]
  · exact plain_of_kind? (by rw [added.kind?, if_pos rfl]) nb

private theorem allocated_point {entry : ValueId} (allocated : Allocated m t slot ty n entry d)
    (pt : m.insertPoint = some ⟨here, (m.graph.code here).length⟩) :
    t.insertPoint = some ⟨here, (t.graph.code here).length⟩ := by
  have lt : slotPosition m.graph entry ≤ (m.graph.code entry).length := by
    rw [code_of_kind? allocated.inserted.block]
    exact allocated.inserted.bound
  by_cases isEntry : here = entry
  · subst isEntry
    rw [allocated.moved, pt, Option.map_some, if_pos ⟨rfl, lt⟩, allocated.code]
    simp
    omega
  · have cs := allocated.inserted.code here
    rw [if_neg isEntry] at cs
    rw [allocated.moved, pt, Option.map_some, if_neg fun both => isEntry both.1]
    exact congrArg (fun cs : List ValueId => some (InsertPoint.mk here cs.length)) cs.symm

section
variable (building : u.Building scs st m here)
include building

theorem Building.allocated (allocated : Allocated m t slot ty n u.entry d) :
    u.Straight scs st m t here ∧ t.graph.Plain slot := by
  have put := allocated.inserted
  have grows := allocated.grows
  obtain ⟨f, isFn⟩ := building.skeleton.laid.function
  have layout : t.graph.layout u.func = m.graph.layout u.func :=
    put.layout (lt_of_kind? isFn)
  have skel : u.base.Skeleton t.graph u.func u.entry :=
    put.skeleton building.skeleton building.skeleton.entry_mem (fun last => by cases last) (fun _ => rfl)
      (fun _ v mem => by cases mem) (fun isBranch => by cases isBranch)
      (fun dest goes => by cases goes)
  have ns : SameNames m t :=
    have eq := sameNames_inserted put
    ⟨eq.symbols, eq.functions, eq.globals, eq.current⟩
  have others : ∀ b, b ≠ u.entry → t.graph.code b = m.graph.code b := by
    intro b notEntry
    exact (put.code b).trans (if_neg notEntry)
  refine ⟨⟨?_, .single grows layout fun b _ notEntry => others b notEntry, layout, ?_⟩,
    plain_of_kind? put.kind?_self rfl⟩
  · refine building.grown skel ?_ grows (layout ▸ List.Subset.refl _) ns
      (allocated_point allocated building.point) (by rw [layout]; exact building.member)
    intro v above
    by_cases isSlot : v = slot
    · rw [isSlot]
      have hit : t.graph.opcode? slot = some .alloca := put.opcode?_self
      rw [hit]
      simp
    · have eq : t.graph.opcode? v = m.graph.opcode? v := put.opcode? isSlot
      rw [eq]
      exact building.noReturn v above
  · intro ho
    by_cases isEntry : here = u.entry
    · subst isEntry
      have cs := allocated.code
      rw [slotPosition, ho] at cs
      simp only [Option.isSome_none, Bool.false_eq_true, if_false, take_length, drop_length] at cs
      have hit : t.graph.opcode? slot = some .alloca := put.opcode?_self
      rw [Graph.lastOf, cs, getLast?_concat, Option.filter_some, if_neg]
      rw [isTerminator_of_opcode? hit]
      decide
    · rw [lastOf_congr (others here isEntry), ho]
      intro v mem
      obtain ⟨_, d, hit, _⟩ := building.skeleton.coded.listed here v building.here_above mem
      exact put.opcode? (put.ne_of_lt (lt_of_kind? hit))

theorem Building.alloca (done : Builder.alloca ty n m = .ok (slot, t)) :
    u.Straight scs st m t here ∧ t.graph.Plain slot := by
  obtain ⟨state', d, current, allocated⟩ := alloca_ok building.skeleton.consistent done
  obtain rfl : st = state' := Option.some.inj (building.current.symm.trans current)
  rw [building.entry] at allocated
  exact building.allocated allocated

theorem Building.createBlock {b : ValueId} (done : Builder.createBlock u.func n m = .ok (b, t)) :
    u.Building scs st t here ∧ u.Advances m.graph here t.graph here [b] ∧
      BlockAdded m.graph t.graph b u.func n := by
  obtain ⟨add, current, eq, kept, _⟩ := createBlock_ok building.skeleton.consistent done
  obtain rfl : current = some st := kept st building.current building.function
  have layout := Graph.Skeleton.layout_blockAdded add
  have grows := add.grows u.entry building.skeleton.laid.function
  have ns : SameNames m t := by
    rw [eq]
    exact ⟨rfl, rfl, rfl, building.current.symm⟩
  refine ⟨?_, ⟨grows, layout ▸ prefix_append _ _, .inl rfl, fun b _ _ _ => add.code b, ?_⟩, add⟩
  · refine building.grown (building.skeleton.blockAdded add) ?_ grows (layout ▸ subset_append_left _ _) ns ?_ ?_
    · intro v above
      rw [Graph.opcode?, add.kind? v]
      split
      · simp [Kind.opcode?]
      · exact building.noReturn v above
    · rw [add.code, eq]
      exact building.point
    · rw [layout]
      exact mem_append_left _ building.member
  · intro other mem _
    rw [layout, mem_append, mem_singleton] at mem
    rcases mem with old | rfl
    · by_cases isHere : other = here
      · exact .inl isHere
      · exact .inr (.inr ⟨old, isHere⟩)
    · exact .inr (.inl mem_cons_self)

theorem Building.entered (into : dest ∈ m.graph.layout u.func)
    (done : Builder.setInsertPoint dest m = .ok (res, t)) :
    u.Building scs st t dest ∧ t.graph = m.graph := by
  obtain ⟨_, rfl⟩ := setInsertPoint_ok done
  exact ⟨building.grown building.skeleton building.noReturn (.refl _ _) (List.Subset.refl _)
    ⟨rfl, rfl, rfl, rfl⟩ rfl into, rfl⟩

end

theorem Building.setInsertPoint {g : Graph} {middle : Module} {mid : ValueId} {pending later : List ValueId}
    (building : u.Building scs st middle mid) (advances : u.Advances g here middle.graph mid pending)
    (last : ∃ i, middle.graph.lastOf mid = some i) (into : dest ∈ middle.graph.layout u.func)
    (new : g.values.size ≤ dest.index) (left : ∀ b ∈ pending, b = dest ∨ b ∈ later)
    (done : Builder.setInsertPoint dest middle = .ok (res, t)) :
    u.Building scs st t dest ∧ u.Advances g here t.graph dest later ∧
      t.graph = middle.graph := by
  obtain ⟨ent, eq⟩ := building.entered into done
  refine ⟨ent, ?_, eq⟩
  rw [eq]
  refine ⟨advances.grows, advances.layout, .inr new, advances.others, ?_⟩
  intro b mem ho
  rcases advances.closed b mem ho with rfl | isPending | old
  · obtain ⟨i, ends⟩ := last
    rw [ends] at ho
    cases ho
  · exact (left b isPending).imp_right .inl
  · exact .inr (.inr old)

end Midend.Site
