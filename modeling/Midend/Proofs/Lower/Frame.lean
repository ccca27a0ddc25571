import Midend.Proofs.Lower.Ordered

/-! The frame of one item: what lowering it leaves of everything that was there before. An item with a
mistake leaves all of it as it was, down to the order of use lists. -/
namespace Midend
open Option
open List Builder Graph

namespace Graph
variable {base g t : Graph}
variable {v : ValueId}

private theorem value_of_bare {d : Value} (hit : g.bare v = some d) :
    g.value v = .ok { d with uses := g.usesOf v } := by
  obtain ⟨val, isValue⟩ := value_of_lt (bare_isSome.1 (by rw [hit]; rfl))
  rw [bare_eq_some isValue] at hit
  cases hit
  rw [isValue, usesOf_of_value isValue]

namespace Accrued
variable {v : ValueId}

private theorem bare_eq (acc : base.Accrued g) (framed : base.Framed g) (into : v.index < base.values.size) :
    g.bare v = base.bare v := by
  obtain ⟨d, hit⟩ := isSome_iff_exists.1 (bare_isSome.2 into)
  obtain ⟨k, more, now⟩ := acc.bare v d hit
  have sameKind := framed.kind? v into
  have sameLength := congrArg List.length (framed.operandsOf v into)
  simp only [kind?_eq_bare, now, hit, map_some, some_inj] at sameKind
  simp only [operandsOf, Graph.slots, now, hit, map_some, getD_some, length_map, length_append] at sameLength
  have none : more = [] := eq_nil_of_length_eq_zero (by omega)
  rw [now, hit, none, sameKind, append_nil]

theorem value (acc : base.Accrued g) (framed : base.Framed g) {val : Value} (hit : base.value v = .ok val) :
    ∃ more, g.value v = .ok { val with uses := val.uses ++ more } ∧ ∀ slot ∈ more, base.uses.size ≤ slot.index := by
  have into := lt_of_value hit
  obtain ⟨more, uses, newer⟩ := acc.usesOf v into
  refine ⟨more, ?_, newer⟩
  rw [value_of_bare ((acc.bare_eq framed into).trans (bare_eq_some hit)), uses, usesOf_of_value hit]

theorem getUse (acc : base.Accrued g) {slot : UseId} {use : Use} (hit : base.getUse slot = .ok use) :
    g.getUse slot = .ok use := by
  have into : slot.index < base.uses.size := by
    rw [getUse_eq_ok] at hit
    exact (Array.getElem?_eq_some_iff.1 hit).1
  have owned := (acc.owner slot into).trans (owner_of_getUse hit)
  rw [getUse_of_owner owned, acc.held slot into, held_of_getUse hit]

private theorem value_of_emptied (acc : base.Accrued g) (framed : base.Framed g) (valid : base.Consistent)
    (consistent : g.Consistent) (emptied : ∀ v, base.values.size ≤ v.index → g.operandsOf v = []) {val : Value}
    (hit : base.value v = .ok val) : g.value v = .ok val := by
  obtain ⟨more, now, newer⟩ := acc.value framed hit
  have none : more = [] := by
    apply eq_nil_iff_forall_not_mem.2
    intro slot mem
    have used : slot ∈ g.usesOf v := by
      rw [usesOf_of_value now]
      exact mem_append_right _ mem
    obtain ⟨⟨user, isIn⟩, _⟩ := (consistent.tracked.mem_usesOf v slot).1 used
    rcases Nat.lt_or_ge user.index base.values.size with old | new
    · rw [slots_congr (acc.bare_eq framed old)] at isIn
      exact absurd (valid.slot_lt isIn) (Nat.not_lt_of_le (newer slot mem))
    · have none := emptied user new
      rw [operandsOf, map_eq_nil_iff] at none
      simp [none] at isIn
  rw [now, none, append_nil]

end Accrued

theorem Framed.held_lt (framed : base.Framed g) (ok : base.Consistent) (consistent : g.Consistent)
    (emptied : ∀ v, base.values.size ≤ v.index → g.operandsOf v = []) {slot : UseId} (h : g.held slot = some v) :
    v.index < base.values.size := by
  have live : g.IsSlot slot := Classical.byContradiction fun dead => by
    rw [consistent.tracked.released slot dead] at h
    cases h
  obtain ⟨user, mem⟩ := live
  have refers : some v ∈ g.operandsOf user := mem_map.2 ⟨slot, mem, h⟩
  rcases Nat.lt_or_ge user.index base.values.size with old | new
  · rw [framed.operandsOf user old] at refers
    exact ok.operand_lt refers
  · rw [emptied user new] at refers
    cases refers

def Furnished (base : Graph) (func : ValueId) (g : Graph) : Prop :=
  ∀ v kind, base.values.size ≤ v.index → v ≠ func → g.kind? v = some kind →
    ∃ limit, g.limit? v = some limit ∧ kind.Built limit

namespace Furnished
variable {fn : ValueId}

theorem congr (fit : base.Furnished fn g) (kinds : ∀ v, t.kind? v = g.kind? v)
    (limits : ∀ v, t.limit? v = g.limit? v) : base.Furnished fn t := by
  intro v k above other hit
  rw [kinds v] at hit
  rw [limits v]
  exact fit v k above other hit

theorem add {k : Kind} {lim : Option Nat} (fit : base.Furnished fn g) (built : k.Built lim) (ty : Ty) :
    base.Furnished fn (g.add k ty lim).2 := by
  intro v other above ne hit
  rw [kind?_eq_bare, bare_add] at hit
  rw [limit?_add, id_add]
  by_cases newest : v.index = g.values.size
  · rw [if_pos newest] at hit
    cases hit
    have eq : v = ⟨g.values.size⟩ := congrArg ValueId.mk newest
    exact ⟨lim, if_pos eq, built⟩
  · rw [if_neg newest, ← kind?_eq_bare] at hit
    have older : v ≠ ⟨g.values.size⟩ := fun eq => newest (congrArg ValueId.index eq)
    rw [if_neg older]
    exact fit v other above ne hit

theorem setBlock {d : Block} (fit : base.Furnished fn g) (rekinded : g.Rekinded t v (.block d)) :
    base.Furnished fn t := by
  intro w k above ne hit
  have into : w.index < g.values.size := rekinded.size ▸ lt_of_kind? hit
  rw [rekinded.kind?] at hit
  rw [rekinded.limit? w]
  split at hit
  next =>
    cases hit
    obtain ⟨old, isKnown⟩ := value_of_lt into
    exact ⟨old.operandLimit, by simp [limit?, bare_eq_some isKnown], trivial⟩
  next => exact fit w k above ne hit

end Furnished

private theorem accrued_upheld (ok : base.Consistent) (fn : ValueId) :
    Upheld (base.values.size ≤ ·.index) fun g => g.Consistent ∧ base.Accrued g ∧ base.Furnished fn g where
  consistent h := h.1
  add h k ty lim built :=
    ⟨h.1.add k ty lim, h.2.1.add k ty lim, h.2.2.add built ty⟩
  addAt h k ty lim _ _ built done := by
    have moved := relocate_rewired (h.1.add k ty lim) done
    exact ⟨moved.consistent, h.2.1.addAt done, (h.2.2.add built ty).congr moved.kind? moved.limit?⟩
  addOperand h _ _ _ _ done := by
    have linked := addOperand_rewired h.1 done
    exact ⟨linked.consistent, h.2.1.addOperand done, h.2.2.congr linked.kind? linked.limit?⟩
  setBlock h _ _ _ _ _ done := by
    have rekinded := setKind_rekinded h.1 done
    exact ⟨rekinded.consistent, h.2.1.setKind done, h.2.2.setBlock rekinded⟩
  setOperand h _ _ _ _ new done := by
    obtain ⟨slot, _, moved⟩ := setOperand_eq_ok done
    have eq := (setUse_redirected moved).sameValues
    exact ⟨h.1.setOperand done, h.2.1.setOperand ok new done, h.2.2.congr eq.kind? eq.limit?⟩

end Graph

namespace Builder
variable {base : Graph} {m t : Module} {fn : ValueId}
variable {res : PUnit} {entry : ValueId}

private theorem mapM_addValue_accrued {α : Type} {items : List α} {k : α → Kind} {ty : α → Ty} {lim : Option Nat}
    {ids : List ValueId} (acc : base.Accrued m.graph) (fit : base.Furnished fn m.graph)
    (done : (items.mapM fun item => addValue (k item) (ty item) lim : Builder (List ValueId)) m = .ok (ids, t))
    (built : ∀ item, (k item).Built lim) : base.Accrued t.graph ∧ base.Furnished fn t.graph := by
  induction items generalizing m ids with
  | nil =>
    obtain ⟨rfl, rfl⟩ := pure_ok.1 done
    exact ⟨acc, fit⟩
  | cons item tl ih =>
    rw [mapM_cons] at done
    have run := addValue_bind_ok.1 done
    obtain ⟨others, m1, more, last⟩ := bind_ok.1 run
    obtain ⟨rfl, rfl⟩ := pure_ok.1 last
    exact ih (acc.add _ _ _) (fit.add (built item) _) more

private theorem createFunction_accrued {n : String} {ty : Ty} {argNames : List String} (valid : m.graph.Consistent)
    (done : createFunction n ty argNames m = .ok (fn, t)) :
    m.graph.Accrued t.graph ∧ m.graph.Furnished fn t.graph := by
  obtain ⟨_, run⟩ := ensure_bind_ok.1 done
  obtain ⟨_, run⟩ := ensure_bind_ok.1 run
  have added := valid.add_added (.function ⟨n, []⟩) ty none
  have run := addValue_bind_ok.1 run
  obtain ⟨args, m1, making, run⟩ := bind_ok.1 run
  obtain ⟨g2, changing, run⟩ := change_bind_ok.1 run
  have run := modify_bind_ok.1 run
  obtain ⟨rfl, rfl⟩ := pure_ok.1 run
  have fit : m.graph.Furnished (m.graph.add (.function ⟨n, []⟩) ty none).1
      (m.graph.add (.function ⟨n, []⟩) ty none).2 := by
    intro v k above other hit
    rw [added.kind? v, if_neg other] at hit
    exact absurd (lt_of_kind? hit) (Nat.not_lt_of_le above)
  obtain ⟨acc, fit⟩ :=
    mapM_addValue_accrued ((Graph.Accrued.refl m.graph).add _ _ _) fit making fun _ => rfl
  obtain ⟨made, eq⟩ := mapM_addValue_ok added.consistent making
  have rekinded := setKind_rekinded made.consistent changing
  refine ⟨acc.setKind changing, ?_⟩
  intro v k above other hit
  rw [rekinded.kind?, if_neg other] at hit
  rw [rekinded.limit?]
  exact fit v k above other hit

private theorem forM_dropOperands_accrued {values : List ValueId} (valid : base.Consistent)
    (new : ∀ v ∈ values, base.values.size ≤ v.index) (acc : base.Accrued m.graph)
    (done : values.forM (fun v => change (·.dropOperands v)) m = .ok (res, t)) : base.Accrued t.graph := by
  induction values generalizing m with
  | nil =>
    obtain ⟨_, rfl⟩ := pure_ok.1 done
    exact acc
  | cons v tl ih =>
    obtain ⟨graph, dropped, next⟩ := change_bind_ok.1
      (show (change (·.dropOperands v) >>= fun _ => tl.forM fun v => change (·.dropOperands v)) m = _ from done)
    have kept := acc.dropOperands valid (new v mem_cons_self) dropped
    exact ih (fun w mem => new w (mem_cons_of_mem _ mem)) kept next

private theorem forM_dropBlock_accrued {bs : List ValueId} (valid : base.Consistent) (consistent : m.graph.Consistent)
    (new : ∀ b ∈ bs, base.values.size ≤ b.index)
    (own : ∀ b ∈ bs, ∀ i ∈ m.graph.code b, base.values.size ≤ i.index)
    (acc : base.Accrued m.graph) (done : bs.forM dropBlock m = .ok (res, t)) :
    base.Accrued t.graph := by
  induction bs generalizing m with
  | nil =>
    obtain ⟨_, rfl⟩ := pure_ok.1 done
    exact acc
  | cons b tl ih =>
    obtain ⟨_, m1, first, next⟩ := bind_ok.1 (show (dropBlock b >>= fun _ => tl.forM dropBlock) m = _ from done)
    obtain ⟨wired, _⟩ := dropBlock_ok consistent first
    have cs : ∀ v, m1.graph.code v = m.graph.code v := by
      intro v
      rw [Graph.code, wired.kind?, Graph.code]
    have dropped : base.Accrued m1.graph := by
      obtain ⟨d, read, run⟩ := ask_bind_ok.1 first
      obtain ⟨_, m2, dropping, run⟩ := bind_ok.1 run
      obtain ⟨graph, emptied, rfl⟩ := change_ok.1 run
      have insts := own b mem_cons_self
      rw [code_of_kind? (block_eq_ok.1 read)] at insts
      exact (forM_dropOperands_accrued valid insts acc dropping).dropOperands valid (new b mem_cons_self) emptied
    apply ih wired.consistent _ _ dropped next
    · exact fun other mem => new other (mem_cons_of_mem _ mem)
    · intro other mem i isIn
      exact own other (mem_cons_of_mem _ mem) i (cs other ▸ isIn)

private theorem removeFunction_accrued {res : Unit} (valid : base.Consistent) (skel : base.Skeleton m.graph fn entry)
    (acc : base.Accrued m.graph) (done : removeFunction fn m = .ok (res, t)) : base.Accrued t.graph := by
  obtain ⟨d, isFn⟩ := skel.laid.function
  have into := lt_of_kind? isFn
  obtain ⟨bs, read, run⟩ := ask_bind_ok.1 done
  rw [skel.consistent.functionBlocks into] at read
  cases read
  obtain ⟨_, m1, dropping, run⟩ := bind_ok.1 run
  obtain ⟨first, _⟩ := forM_dropBlock_ok skel.consistent dropping
  have above : ∀ b ∈ m.graph.layout fn, base.values.size ≤ b.index := fun b mem =>
    ((skel.laid.blocks b).1 mem).1
  have own : ∀ b ∈ m.graph.layout fn, ∀ i ∈ m.graph.code b, base.values.size ≤ i.index :=
    fun b mem i isIn => (skel.coded.listed b i (above b mem) isIn).1
  have accrued1 := forM_dropBlock_accrued valid skel.consistent above own acc dropping
  obtain ⟨g2, dropping', run⟩ := change_bind_ok.1 run
  have accrued2 := accrued1.dropOperands valid skel.laid.above dropping'
  obtain ⟨g3, removing, run⟩ := change_bind_ok.1 run
  obtain ⟨_, dropped, second⟩ := first.consistent.dropOperands_rewired (first.size ▸ into)
  cases dropped.symm.trans dropping'
  have accrued3 : base.Accrued g3 := by
    apply accrued2.removeFromUsers valid second.consistent _ _ removing
    · rw [second.size, first.size]
      exact into
    · intro user refers
      -- An older value has the operands that it had, and none of them is newer than itself.
      apply Nat.le_of_not_lt
      intro old
      rw [second.operandsOf, first.operandsOf] at refers
      split at refers
      next => cases refers
      next =>
        split at refers
        next => cases refers
        next =>
          rw [skel.framed.operandsOf user old] at refers
          exact absurd (valid.operand_lt refers) (Nat.not_lt_of_le skel.laid.above)
  obtain ⟨f, _, run⟩ := ask_bind_ok.1 run
  obtain rfl := modify_ok.1 run
  dsimp only
  split
  · exact accrued3
  · exact accrued3

/-- Nothing that was made for a function has operands after it was removed. -/
theorem Removed.emptied (gone : Removed m t fn) (skel : base.Skeleton m.graph fn entry)
    (fit : base.Furnished fn m.graph) (v : ValueId) (above : base.values.size ≤ v.index) :
    t.graph.operandsOf v = [] := by
  rw [gone.graph.operandsOf]
  split
  next => rfl
  next outside =>
    obtain ⟨notFunc, nb, notInst⟩ := by simpa only [not_or] using outside
    suffices none : m.graph.operandsOf v = [] by simp [none]
    cases hit : m.graph.kind? v with
    | none => exact operandsOf_nil_of_ge (Nat.le_of_not_lt fun into => by simp [← kind?_isSome, hit] at into)
    | some k =>
      obtain ⟨lim, isLimit, built⟩ := fit v k above notFunc hit
      have leaf : lim = some 0 := by
        cases k with
        | block d => exact absurd ((skel.laid.blocks v).2 ⟨above, by rw [Graph.isBlock, hit]; rfl⟩) nb
        | inst d =>
          obtain ⟨home, isIn⟩ := skel.coded.homes v d above hit
          obtain ⟨parent, isParent⟩ := block_of_mem_code isIn
          have mem := (skel.laid.blocks d.parent).2 ⟨home, by rw [Graph.isBlock, isParent]; rfl⟩
          exact absurd (mem_flatMap.2 ⟨_, mem, isIn⟩) notInst
        | function d => cases built
        | global n => cases built
        | _ => exact built
      obtain ⟨d, isData, isLimit⟩ := map_eq_some_iff.1 isLimit
      have few := skel.consistent.limited v d 0 isData (isLimit.trans leaf)
      have none : m.graph.slots v = [] := by
        rw [Graph.slots, isData]
        exact eq_nil_of_length_eq_zero (Nat.le_zero.1 few)
      rw [Graph.operandsOf, none]
      rfl

end Builder
namespace Lowering

structure Frame (s : Lowering) (result : Except LowerError Unit) (after : Lowering) : Prop where
  accrued : s.module.graph.Accrued after.module.graph
  contexts : after.module.contexts = s.module.contexts
  lists : ∃ functions globals, after.module.functions = s.module.functions ++ functions ∧
    after.module.globals = s.module.globals ++ globals ∧ functions.length + globals.length ≤ 1
  failed : ∀ e, result = .error e → after.module.functions = s.module.functions ∧
    after.module.globals = s.module.globals ∧
    ∀ v, s.module.graph.values.size ≤ v.index → after.module.graph.operandsOf v = []

variable {s t : Lowering} {f : FuncDef} {res : Except LowerError Unit}

theorem Frame.reported (s : Lowering) (report : Report) : s.Frame res { s with module.report := report } where
  accrued := .refl _
  contexts := rfl
  lists := ⟨[], [], by simp⟩
  failed _ _ := ⟨rfl, rfl, fun _ above => operandsOf_nil_of_ge above⟩

theorem Ordered.lowered {fn : ValueId} {module : Module} {final : Lowering} (ord : s.Ordered)
    (created : Builder.createFunction f.name f.ty (f.params.map (·.name))
      { s.module with contexts := f.location :: s.module.contexts } = .ok (fn, module))
    (ran : (Lower.functionBody fn f).run (s.entering f.name fn module) = .ok (res, final)) :
    s.module.graph.Accrued final.module.graph ∧ s.module.graph.Furnished fn final.module.graph ∧
      final.module.contexts = f.location :: s.module.contexts := by
  obtain ⟨⟨args, ho⟩, eq⟩ := Lower.opened_of_created ord.toSettled created
  obtain ⟨acc, fit⟩ := createFunction_accrued
    (m := { s.module with contexts := f.location :: s.module.contexts }) ord.consistent created
  have new : s.module.graph.values.size ≤ fn.index := Nat.le_of_eq (congrArg ValueId.index ho.added.fresh).symm
  obtain ⟨⟨_, accrued', furnished'⟩, contexts, _⟩ := (accrued_upheld ord.consistent fn).functionBody new
    ⟨ho.added.consistent, acc, fit⟩ ran
  refine ⟨accrued', furnished', contexts.trans ?_⟩
  show module.contexts = _
  rw [eq]

private theorem Ordered.function_frame (ord : s.Ordered) (run : Lower.FunctionRun f s res t) : s.Frame res t := by
  cases run with
  | redefined => exact .reported s _
  | @kept fn module final _ created lowered =>
    obtain ⟨acc, _, contexts⟩ := ord.lowered created lowered
    obtain ⟨⟨args, ho⟩, eq⟩ := Lower.opened_of_created ord.toSettled created
    have left := Lower.left_of_intact ord.toSettled eq (Lower.functionBody_ends ho _ _ lowered).1
    refine ⟨acc, congrArg List.tail contexts, ⟨[fn], [], left.functions, ?_, by simp⟩, nofun⟩
    rw [append_nil]
    exact left.globals
  | @dropped fn module module' final e _ created lowered removing =>
    obtain ⟨acc, fit, contexts⟩ := ord.lowered created lowered
    have restored := ord.restored created lowered removing
    obtain ⟨⟨args, ho⟩, eq⟩ := Lower.opened_of_created ord.toSettled created
    have left := Lower.left_of_intact ord.toSettled eq (Lower.functionBody_ends ho _ _ lowered)
    obtain ⟨entry, skel⟩ := left.skeleton
    obtain ⟨data, isFn⟩ := skel.laid.function
    have removed := removeFunction_ok skel.consistent (lt_of_kind? isFn) removing
    have gone : s.module.graph.Accrued module'.graph :=
      removeFunction_accrued ord.consistent skel acc removing
    refine ⟨gone, congrArg List.tail restored.contexts, ⟨[], [], ?_, ?_, by simp⟩, fun _ _ => ⟨restored.functions, restored.globals, ?_⟩⟩
    · rw [append_nil]
      exact restored.functions
    · rw [append_nil]
      exact restored.globals
    · exact removed.emptied skel fit

theorem Ordered.item_frame {i : Item} (ord : s.Ordered) (ran : (Lower.item i).run s = .ok (res, t)) :
    s.Frame res t := by
  cases i with
  | func f => exact ord.function_frame (Lower.function_run ran)
  | global d =>
    cases Lower.global_run ord.consistent ran with
    | failed => exact .reported s _
    | @made graph global _ acc _ =>
      refine ⟨acc, rfl, ⟨[], [global], ?_, rfl, by simp⟩, nofun⟩
      rw [append_nil]

private theorem program_contexts {p : Program} (ord : s.Ordered) (done : s.program p = .ok t) :
    t.module.contexts = s.module.contexts := by
  obtain ⟨items⟩ := p
  induction items generalizing s with
  | nil =>
    cases done
    rfl
  | cons i tl ih =>
    obtain ⟨mid, first, next⟩ := bind_eq_ok.1 done
    obtain ⟨⟨res, final⟩, ran, rfl⟩ := map_eq_ok.1 first
    exact (ih (ord.item first) next).trans (ord.item_frame ran).contexts

end Lowering

/-- Lowering an item leaves every older value as it was, except that use lists may grow at their ends, and
every older slot. At most one function or one global is added, and nothing is being built afterwards. If the
item has a mistake, all older values and both lists are exactly as before, and no slot refers to anything that
was made for the item. -/
theorem lowered_item_frame (p : Program) (name : String) (s : Lowering) (reached : (Lowering.start name).program p = .ok s)
    (i : Item) (result : Except LowerError Unit) (after : Lowering) (ran : (Lower.item i).run s = .ok (result, after)) :
    (∀ v value, s.module.graph.value v = .ok value →
      ∃ more, after.module.graph.value v = .ok { value with uses := value.uses ++ more }) ∧
    (∀ slot use, s.module.graph.getUse slot = .ok use → after.module.graph.getUse slot = .ok use) ∧
    (∃ functions globals, after.module.functions = s.module.functions ++ functions ∧
      after.module.globals = s.module.globals ++ globals ∧ functions.length + globals.length ≤ 1) ∧
    after.module.contexts = [] ∧ after.loops = [] ∧ after.module.symbols.inner = [] ∧ after.module.current = none ∧
    after.module.insertPoint = none ∧
    ∀ e, result = .error e →
      (∀ v value, s.module.graph.value v = .ok value → after.module.graph.value v = .ok value) ∧
      after.module.functions = s.module.functions ∧ after.module.globals = s.module.globals ∧
      ∀ slot use v, after.module.graph.getUse slot = .ok use → use.value = some v →
        v.index < s.module.graph.values.size := by
  have ordered := (Lowering.ordered_start name).program reached
  have continues := Lower.item_continues ordered.toSettled ran
  have settled := continues.settled
  have frame := ordered.item_frame ran
  refine ⟨?_, ?_, frame.lists, ?_, settled.outside, settled.flat, settled.idle.1, settled.idle.2, ?_⟩
  · intro v value found
    obtain ⟨more, now, _⟩ := frame.accrued.value continues.framed found
    exact ⟨more, now⟩
  · intro slot use found
    exact frame.accrued.getUse found
  · rw [frame.contexts]
    exact Lowering.program_contexts (Lowering.ordered_start name) reached
  · intro e isError
    obtain ⟨functions, globals, emptied⟩ := frame.failed e isError
    refine ⟨?_, functions, globals, ?_⟩
    · intro v value found
      exact frame.accrued.value_of_emptied continues.framed ordered.consistent settled.consistent emptied found
    · intro slot use v found holds
      exact continues.framed.held_lt ordered.consistent settled.consistent emptied ((held_of_getUse found).trans holds)

def readGlobal : Program where
  items := [
    .global { name := "g", ty := .int32, initializer := some (.ofInt 1) },
    .func { name := "f", returnType := .int32, params := [], body := .ret (some (.ofName "g" .int32)) .unknown }]

def writeThenMistake : Item :=
  .func
    { name := "h"
      returnType := .int32
      params := []
      body := .compound [
        .expr (.ofBinary (.assign none) (.ofName "g" .int32) (.ofCall "f" [] .int32)) .unknown,
        .breakLoop .unknown] .unknown }

theorem lowered_item_frame_mistake : ∃ s e after, (Lowering.start "unit").program readGlobal = .ok s ∧
    (Lower.item writeThenMistake).run s = .ok (.error e, after) ∧
    s.module.graph.values.size < after.module.graph.values.size ∧
    (∀ v value, s.module.graph.value v = .ok value → after.module.graph.value v = .ok value) ∧
    after.module.functions = s.module.functions ∧ after.module.globals = s.module.globals := by
  have fails : ((Lowering.start "unit").program readGlobal >>= fun s =>
      (fun ran => (ran.1.toOption.isNone, decide (s.module.graph.values.size < ran.2.module.graph.values.size))) <$>
        (Lower.item writeThenMistake).run s) = .ok (true, true) := by
    decide +kernel
  obtain ⟨s, reached, more⟩ := bind_eq_ok.1 fails
  obtain ⟨⟨result, after⟩, ran, found⟩ := map_eq_ok.1 more
  obtain ⟨failed, grown⟩ := Prod.mk.inj found
  cases result with
  | ok value => cases failed
  | error e =>
    obtain ⟨_, _, _, _, _, _, _, _, mistake⟩ := lowered_item_frame readGlobal "unit" s reached writeThenMistake _ after ran
    obtain ⟨same, functions, globals, _⟩ := mistake e rfl
    exact ⟨s, e, after, reached, ran, of_decide_eq_true grown, same, functions, globals⟩

end Midend
