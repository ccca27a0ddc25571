import Midend.Proofs.Lower.Program
import Midend.Proofs.Lower.References

/-! What lowered functions refer to. -/
namespace Midend
open List Builder Graph

theorem Graph.Skeleton.home_of_isTerminator {base g : Graph} {fn entry i : ValueId}
    (skel : base.Skeleton g fn entry) (new : base.values.size ≤ i.index) (ends : g.isTerminator i) :
    ∃ home ∈ g.layout fn, i ∈ g.code home := by
  cases opcode : g.opcode? i with
  | none => simp [Graph.isTerminator, opcode] at ends
  | some op =>
    obtain ⟨d, hit, _⟩ := inst_of_opcode? opcode
    obtain ⟨home, mem⟩ := skel.coded.homes i d new hit
    obtain ⟨parent, isParent⟩ := block_of_mem_code mem
    exact ⟨_, (skel.laid.blocks _).2 ⟨home, by rw [Graph.isBlock, isParent]; rfl⟩, mem⟩

namespace Site
variable {u : Site} {av : ValueId → ValueId → Prop} {g : Graph}

theorem Traced.tracked (traced : u.Traced av g) (skel : u.base.Skeleton g u.func u.entry)
    (ok : u.base.Consistent) : g.Tracked u.functions u.globals u.func u.entry where
  head := by
    obtain ⟨tl, split⟩ := head?_eq_some_iff.1 skel.laid.head
    rw [skel.laid.slots, split]
    rfl
  operands := fun b mem i isIn => (traced.fed b mem i isIn).operands
  once := fun b mem => skel.coded.once b ((skel.laid.blocks b).1 mem).1
  covered := ⟨av, traced.covered⟩
  recorded := traced.recorded
  owned := by
    intro b mem user held
    have above := ((skel.laid.blocks b).1 mem).1
    have hb := ((skel.laid.blocks b).1 mem).2
    have new : u.base.values.size ≤ user.index := by
      refine Nat.le_of_not_lt fun old => ?_
      rw [skel.framed.operandsOf user old] at held
      exact absurd (ok.operand_lt held) (Nat.not_lt_of_le above)
    rcases skel.wired.references user b new hb held with rfl | userBlock | ends
    · exact .self
    · exact .block ((skel.laid.blocks user).2 ⟨new, userBlock⟩)
    · obtain ⟨home, mem, isIn⟩ := skel.home_of_isTerminator new ends
      exact .inst mem isIn

theorem Traced.own_blocks (traced : u.Traced av g) (skel : u.base.Skeleton g u.func u.entry)
    {user b : ValueId} (new : u.base.values.size ≤ user.index) (hb : g.isBlock b)
    (held : some b ∈ g.operandsOf user) : b ∈ g.layout u.func := by
  rcases skel.wired.references user b new hb held with rfl | userBlock | ends
  · exact mem_layout.2 held
  · have recorded := traced.recorded user ((skel.laid.blocks user).2 ⟨new, userBlock⟩)
    obtain ⟨pred, mem, edge⟩ := mem_flatMap.1 (recorded.mem_iff.1 held)
    cases (mem_replicate.1 edge).2
    exact mem
  · obtain ⟨home, mem, isIn⟩ := skel.home_of_isTerminator new ends
    cases (traced.fed home mem user isIn).operands _ held with
    | shared shared =>
      obtain ⟨k, hit, nb, _⟩ := shared.data
      rw [Graph.isBlock, hit] at hb
      exact absurd hb (by simp [nb])
    | target _ into => exact into
    | result hit =>
      rw [Graph.isBlock, hit] at hb
      cases hb

theorem Traced.housed (traced : u.Traced av g) (skel : u.base.Skeleton g u.func u.entry) :
    g.Housed u.func := by
  intro b mem i isIn v d used hit
  obtain ⟨above, _⟩ := (traced.fed b mem i isIn).results v d used hit
  obtain ⟨home, inHome⟩ := skel.coded.homes v d above hit
  obtain ⟨parent, hb⟩ := block_of_mem_code inHome
  exact ⟨d.parent, (skel.laid.blocks _).2 ⟨home, by rw [Graph.isBlock, hb]; rfl⟩, inHome⟩

end Site

namespace Lower
open Site
variable {u : Site} {av : ValueId → ValueId → Prop} {st : FunctionState}
  {s : Lowering} {here : ValueId} {broken : Lowering → Prop}
variable {exit : ValueId}

private theorem paramSlot_went {param : Param} {arg : ValueId} (sound : u.Sound av st s.module here)
    (nested : 0 < s.module.symbols.inner.length) (shared : u.Shared s.module.graph arg) :
    Ends (paramSlot param arg) s broken fun _ t => u.Went st av s av t here := by
  refine (alloca_along sound).bind ?_
  intro slot s1 ⟨along1, old⟩
  refine (store_along along1.sound (.inl (along1.grows.shared shared)) (along1.sound.held old)).bind ?_
  intro _ s2 along2
  have way := along1.trans along2
  refine (declare_went along2.sound (way.went.depth ▸ nested) (old.grown along2.grows)).mono (fun _ bad => bad) ?_
  intro _ t went
  exact way.went.trans went

private theorem params_went {pairs : List (Param × ValueId)} (sound : u.Sound av st s.module here)
    (nested : 0 < s.module.symbols.inner.length) (shared : ∀ pair ∈ pairs, u.Shared s.module.graph pair.2) :
    Ends (pairs.forM fun pair => paramSlot pair.1 pair.2) s broken fun _ t =>
      u.Went st av s av t here := by
  induction pairs generalizing s with
  | nil => exact .pure (went_refl sound)
  | cons pair tl ih =>
    refine (paramSlot_went sound nested (shared pair mem_cons_self)).bind ?_
    intro _ s1 went1
    refine (ih went1.sound (went1.depth ▸ nested) fun other mem =>
      went1.grows.shared (shared other (mem_cons_of_mem _ mem))).mono (fun _ bad => bad) ?_
    intro _ t went2
    exact went1.trans went2

structure Noted (site : Site) (avail : ValueId → ValueId → Prop) (s : Lowering) (state' : FunctionState)
    (avail' : ValueId → ValueId → Prop) (after : Lowering) (there : ValueId) : Prop
    extends site.Later avail s.module.graph avail' after.module.graph where
  sound : site.Sound avail' state' after.module there
  loops : after.loops = s.loops
  depth : after.module.symbols.inner.length = s.module.symbols.inner.length

private theorem returnSlot_noted {ty : Ty} (sound : u.Sound av st s.module here) :
    Ends (returnSlot ty) s broken fun slot t =>
      (∃ returnSlot, Noted u av s { st with returnSlot } av t here) ∧
        ∀ v ∈ slot, u.Known t.module.graph v := by
  unfold returnSlot
  split
  next => exact .pure ⟨⟨st.returnSlot, .refl _ _ _, sound, rfl, rfl⟩, by simp⟩
  next =>
    refine (alloca_along sound).bind ?_
    intro slot s1 ⟨along1, old⟩
    have noted : Ends (build (Builder.setReturnSlot slot)) s1 broken fun _ t =>
        Noted u av s { st with returnSlot := some slot } av t here ∧
          u.Known t.module.graph slot := by
      refine .build fun _ m done => ?_
      obtain rfl := modify_ok.1 done
      have went := along1.went
      refine ⟨⟨went.toLater, ?_, went.loops, went.depth⟩, old⟩
      refine along1.sound.renamed (along1.sound.toBuilding.setReturnSlot (along1.sound.held old).plain) rfl
        along1.sound.known rfl ?_
      intro other isSlot
      cases isSlot
      exact old
    refine noted.bind ?_
    intro _ s2 ⟨noted2, known2⟩
    refine .pure ⟨⟨_, noted2⟩, ?_⟩
    intro v isSlot
    cases isSlot
    exact known2

private theorem setFunctionExit_noted (sound : u.Sound av st s.module here)
    (ready : u.Ready av s.module.graph exit) : Ends (build (Builder.setFunctionExit exit)) s broken fun _ t =>
      Noted u av s { st with exit := some exit } av t here := by
  refine .build fun _ m done => ?_
  obtain rfl := modify_ok.1 done
  exact ⟨.refl _ _ _, sound.renamed (sound.toBuilding.setExit ready.inside) rfl sound.known rfl sound.result, rfl, rfl⟩

private theorem return_traced {slot : Option ValueId} (sound : u.Sound av st s.module here)
    (ready : u.Ready av s.module.graph exit) (notEntry : exit ≠ u.entry)
    (old : ∀ v ∈ slot, u.Known s.module.graph v) :
    Ends (do
      build (Builder.moveBlockToEnd u.func exit)
      build (Builder.setInsertPoint exit)
      let res ← build (slot.mapM Builder.load)
      let _ ← build (Builder.ret res)) s broken fun _ t => u.Traced av t.module.graph := by
  have moved : Ends (build (Builder.moveBlockToEnd u.func exit)) s broken fun _ t =>
      u.Went st av s av t here :=
    .build fun _ _ done => (sound.moveBlockToEnd ready.inside notEntry done).went
  refine moved.bind ?_
  intro _ s1 went1
  refine (setInsertPoint_went went1.sound (ready.later sound.skeleton went1.toLater)).bind ?_
  intro _ s2 went2
  have way := went1.trans went2
  have loaded : Ends (build (slot.mapM Builder.load)) s2 broken fun res t =>
      u.Along st av s2 exit av t exit ∧
        ∀ v ∈ res.toList, u.Held av t.module.graph exit v := by
    refine .build fun res m done => ?_
    cases slot with
    | none =>
      obtain ⟨rfl, rfl⟩ := pure_ok.1 done
      exact ⟨.refl went2.sound, by simp⟩
    | some v =>
      obtain ⟨val, loading, rfl⟩ := map_ok.1 done
      have held := went2.sound.held ((old v rfl).grown way.grows)
      obtain ⟨onward, heldValue⟩ := (sound_upkeep u av st exit).load went2.sound held loading
      exact ⟨⟨onward, rfl⟩, by simpa using heldValue⟩
  refine loaded.bind ?_
  intro res s3 ⟨along3, held⟩
  have returned : Ends (build (Builder.ret res)) s3 broken fun _ t =>
      u.Traced av t.module.graph := by
    refine .build fun ret m done => ?_
    obtain ⟨pt, d, put⟩ := insertInst_ok along3.sound.skeleton.consistent done
    exact along3.sound.returned put held
  refine returned.bind ?_
  intro _ t traced
  exact .pure traced

section Body
variable {base : Graph} {fn : ValueId} {f : FuncDef} {args : List ValueId}

structure Primed (s : Lowering) (func : ValueId) : Prop where
  known : s.module.symbols.All (s.module.graph.Shared s.module.functions s.module.globals func)
  callees : ∀ callee ∈ s.module.functions, ∃ data, s.module.graph.kind? callee = some (.function data)

theorem Primed.sound {s1 : Lowering} (primed : Primed s fn) (ho : Opened base s fn f args)
    (made : (siteOf base s fn).Building s.module.symbols
      { function := fn, entry := (siteOf base s fn).entry } s1.module (siteOf base s fn).entry)
    (add : Builder.BlockAdded s.module.graph s1.module.graph (siteOf base s fn).entry fn (some "entry")) :
    (siteOf base s fn).Sound (fun _ _ => False) { function := fn, entry := (siteOf base s fn).entry }
      s1.module (siteOf base s fn).entry := by
  have grows := add.grows (siteOf base s fn).entry ⟨_, ho.added.kind?⟩
  have alone : s1.module.graph.layout fn = [(siteOf base s fn).entry] := by
    rw [Graph.layout, add.operandsOf, if_pos rfl,
      ho.added.operandsOf_nil (Nat.le_of_eq (by rw [ho.added.fresh]))]
    rfl
  have cs := add.code_self
  have ns := made.names
  refine ⟨by rwa [ns], ⟨by simp, by simp, by simp, ?_, ?_, ?_⟩, ?_, ?_, by simp⟩
  · intro b mem i isIn
    obtain rfl := mem_singleton.1 (alone ▸ mem)
    rw [cs] at isIn
    cases isIn
  · intro b mem
    obtain rfl := mem_singleton.1 (alone ▸ mem)
    have none : s1.module.graph.operandsOf (siteOf base s fn).entry = [] := by
      rw [add.operandsOf, if_neg (add.ne_of_lt (lt_of_kind? ho.added.kind?)).symm]
      exact operandsOf_nil_of_ge (Nat.le_refl _)
    rw [none, Graph.incoming, show s1.module.graph.layout (siteOf base s fn).func = _ from alone]
    simp [Graph.incomingFrom, Graph.exits, Graph.lastOf, cs]
  · intro b mem
    obtain rfl := mem_singleton.1 (alone ▸ mem)
    unfold Graph.Sorted
    rw [cs]
    exact List.Pairwise.nil
  · rw [ns]
    exact primed.known.mono fun _ shared => .inl (grows.shared shared)
  · intro callee isIn
    have fs := made.functions
    rw [fs] at isIn
    obtain ⟨d, hit⟩ := primed.callees callee isIn
    exact .function (grows.kind? callee _ hit rfl) isIn

private theorem blocks_traced {slot : Option ValueId} {body : Stmt} (isFunc : u.func = fn)
    (sound : u.Sound av st s.module u.entry) (loops : s.loops = [])
    (nested : 0 < s.module.symbols.inner.length) (known : ∀ v ∈ slot, u.Known s.module.graph v) :
    Ends (do
      let exit ← build (Builder.createBlock fn (some "func_exit"))
      build (Builder.setFunctionExit exit)
      let bodyBlock ← build (Builder.createBlock fn (some "body"))
      let _ ← build (Builder.jump bodyBlock)
      build (Builder.setInsertPoint bodyBlock)
      outermost body
      jumpUnlessTerminated exit
      build (Builder.moveBlockToEnd fn exit)
      build (Builder.setInsertPoint exit)
      let res ← build (slot.mapM Builder.load)
      let _ ← build (Builder.ret res)) s (fun _ => True) fun _ t =>
        ∃ avail', u.Traced avail' t.module.graph := by
  subst isFunc
  refine (createBlock_made (fun _ => False) sound fun _ never => never.elim).bind ?_
  intro exit s1 made1
  refine (setFunctionExit_noted made1.sound made1.ready).bind ?_
  intro _ s2 noted2
  refine (createBlock_made (fun _ => False) noted2.sound fun _ never => never.elim).bind ?_
  intro bodyBlock s3 made3
  refine (jump_went made3.sound made3.ready).bind ?_
  intro _ s4 went4
  refine (setInsertPoint_went went4.sound (made3.ready.later made3.sound.skeleton went4.toLater)).bind ?_
  intro _ s5 went5
  have later := noted2.toLater.trans (made3.toLater.trans (went4.toLater.trans went5.toLater))
  have ready := made1.ready.later made1.sound.skeleton later
  have referring : u.Referring (covering (covering av exit fun _ => False) bodyBlock fun _ => False)
      { st with exit := some exit } s5 bodyBlock := by
    refine ⟨went5.sound, ?_, ?_, ?_⟩
    · intro dests mem
      rw [went5.loops, went4.loops, made3.loops, noted2.loops, made1.loops, loops] at mem
      cases mem
    · rw [went5.depth, went4.depth, made3.toAlong.went.depth, noted2.depth, made1.toAlong.went.depth]
      exact nested
    · intro w isExit
      cases isExit
      exact ready
  have notEntry : exit ≠ u.entry := by
    intro eq
    have old := sound.toBuilding.lt_of_mem sound.skeleton.entry_mem
    rw [← eq] at old
    exact absurd old (Nat.not_lt_of_le made1.new)
  have laws := u.refers_controls { st with exit := some exit } rfl
  let post : u.Post { st with exit := some exit } := ⟨_, s5, bodyBlock, referring⟩
  obtain ⟨_, lowered⟩ := laws.outermost (p := post) body ⟨fun _ _ => trivial, fun _ _ _ _ => trivial⟩
  rw [outermost_eq_stretches, bind_map_left]
  refine (laws.part (laws.past (laws.refl post)) ready lowered fun _ q s6 _ left _ => ⟨False.elim, ?_⟩).ends
  have went6 := left.1.toWent.trans left.2
  have grows := (made1.toLater.trans (later.trans went6.toLater)).grows
  refine (return_traced went6.sound (ready.later referring.skeleton went6.toLater) notEntry fun v isSlot =>
    (known v isSlot).grown grows).mono (fun _ bad => bad) ?_
  intro _ t traced
  exact ⟨q.avail, traced⟩

/-- The code of a function uses only what was computed on every way to it. -/
theorem functionBody_traced (ho : Opened base s fn f args) (primed : Primed s fn) :
    Ends (functionBody fn f) s (fun _ => True) fun _ t =>
      ∃ av, (siteOf base s fn).Traced av t.module.graph := by
  refine entry_ends ho ?_
  intro s0 loops made entryAdded
  refine Ends.ask.bind ?_
  intro d s1 ⟨read, eq⟩
  subst eq
  have sound := primed.sound ho made entryAdded
  have grows := entryAdded.grows (siteOf base s fn).entry ⟨_, ho.added.kind?⟩
  have owner := grows.kind? fn _ ho.added.kind? rfl
  have isData : d.args = args := by
    cases owner.symm.trans (function_eq_ok.1 read)
    rfl
  have shared : ∀ pair ∈ f.params.zip d.args, (siteOf base s fn).Shared s1.module.graph pair.2 := by
    intro pair mem
    rw [isData] at mem
    have isIn := (of_mem_zip mem).2
    obtain ⟨i, isArg⟩ := mem_iff_getElem?.1 isIn
    obtain ⟨_, _, _, _, _, k, _⟩ := ho.added.args i _ isArg
    exact .argument (grows.kind? _ _ k rfl) owner isIn
  have nested : 0 < s1.module.symbols.inner.length := by
    rw [made.names, ho.nested]
    exact Nat.zero_lt_one
  refine (params_went sound nested shared).bind ?_
  intro _ s2 went2
  refine (returnSlot_noted went2.sound).bind ?_
  intro slot s3 ⟨⟨returnSlot, noted3⟩, old⟩
  refine blocks_traced rfl noted3.sound ?_ ?_ old
  · rw [noted3.loops, went2.loops, loops, ho.loops]
  · rw [noted3.depth, went2.depth]
    exact nested

end Body
end Lower
end Midend
