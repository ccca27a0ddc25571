import Midend.Proofs.Module.Terminated

/-! Stack slots go into the entry block while code is put in elsewhere, or in the same block. The place of the next
instruction among the others stays, so that code which is put in at the end of blocks stands in the order in which it
was made. -/
namespace Midend
open List Graph
namespace Graph

def isFunction (g : Graph) (v : ValueId) : Bool := (g.kind? v).any Kind.isFunction

def plainCode (g : Graph) (block : ValueId) : List ValueId := (g.code block).filter (g.opcode? · ≠ some .alloca)

end Graph

namespace Builder
variable {m mid t : Module} {v i f b : ValueId} {ty : Ty} {pt : InsertPoint} {call : Call}
  {res : Unit} {calls : List Call}

/-- An index into a list moves on when something is put in before it: the parts of the list before and behind it stay
as they were. -/
private theorem split_insertIdx {α : Type} [DecidableEq α] {items : List α} {item : α} (fresh : item ∉ items) {pos : Nat}
    (within : pos ≤ items.length) (index : Nat) :
    let moved := if pos ≤ index then index + 1 else index
    ((items.insertIdx pos item).take moved).filter (· ≠ item) = items.take index ∧
      ((items.insertIdx pos item).drop moved).filter (· ≠ item) = items.drop index ∧
      (item ∈ (items.insertIdx pos item).take moved ↔ pos ≤ index) := by
  intro moved
  obtain ⟨front, back, rfl, rfl⟩ : ∃ front back, items = front ++ back ∧ front.length = pos :=
    ⟨_, _, (take_append_drop pos items).symm, length_take_of_le within⟩
  have others : ∀ part : List α, part ⊆ front ++ back → part.filter (· ≠ item) = part := fun part into =>
    filter_eq_self.2 fun w mem => by simpa using fun eq : w = item => fresh (eq ▸ into mem)
  have now : (front ++ back).insertIdx front.length item = front ++ item :: back := by
    rw [insertIdx_eq_append _ _ _ within, take_left, drop_left]
  rw [now]
  by_cases pre : front.length ≤ index
  · obtain ⟨more, rfl⟩ := Nat.exists_eq_add_of_le pre
    have isMoved : moved = front.length + (more + 1) := if_pos pre
    rw [isMoved, take_length_add_append, drop_length_add_append, take_length_add_append, drop_length_add_append,
      take_succ_cons, drop_succ_cons, filter_append, filter_cons_of_neg (by simp), others front (subset_append_left _ _),
      others _ (List.Subset.trans (take_subset _ _) (subset_append_right _ _)),
      others _ (List.Subset.trans (drop_subset _ _) (subset_append_right _ _))]
    exact ⟨rfl, rfl, by simp⟩
  · have into := Nat.le_of_lt (Nat.lt_of_not_le pre)
    have isMoved : moved = index := if_neg pre
    rw [isMoved, take_append_of_le_length into, drop_append_of_le_length into, take_append_of_le_length into,
      drop_append_of_le_length into, filter_append, filter_cons_of_neg (by simp), ← filter_append,
      others _ (List.Subset.trans (take_subset _ _) (subset_append_left _ _)),
      others _ (append_subset.2 ⟨List.Subset.trans (drop_subset _ _) (subset_append_left _ _), subset_append_right _ _⟩)]
    exact ⟨rfl, rfl, fun mem => absurd (subset_append_left _ _ (take_subset _ _ mem)) fresh,
      fun wrong => absurd wrong pre⟩

def Builds (m : Module) (state : FunctionState) : Prop :=
  ∃ old, m.current = some old ∧ old.function = state.function ∧ old.entry = state.entry

private theorem builds_of_eq (current : t.current = m.current) (st : FunctionState) (hit : t.current = some st) : Builds m st :=
  ⟨st, current ▸ hit, rfl, rfl⟩

/-- The modules that calls of the builder make. Besides, blocks may be moved to the end of their function, and anything
may be done that leaves the graph and turns to no other function: the insertion point may be put anywhere. -/
inductive Reached : Module → Prop
  | start (name : String) : Reached { name }
  | call {m after : Module} {call : Call} {v : ValueId} (reached : Reached m) (done : call.make m = .ok (v, after)) :
      Reached after
  | moveBlock {m after : Module} {func block : ValueId} {result : Unit} (reached : Reached m)
      (done : moveBlockToEnd func block m = .ok (result, after)) : Reached after
  | note {m after : Module} (reached : Reached m) (graph : after.graph = m.graph)
      (current : ∀ state, after.current = some state → Builds m state) : Reached after

structure Furnished (m : Module) : Prop where
  listed : m.graph.Listed
  blocks : ∀ func, m.graph.isFunction func → ∀ operand ∈ m.graph.operandsOf func,
    ∃ block, operand = some block ∧ m.graph.isBlock block
  current : ∀ state, m.current = some state → state.function.index < m.graph.values.size ∧
    (m.graph.isFunction state.function → m.graph.isBlock state.entry)

namespace Furnished

theorem grown (fit : Furnished m) (isIn : t.graph.Listed)
    (size : m.graph.values.size ≤ t.graph.values.size)
    (hb : ∀ v, m.graph.isBlock v → t.graph.isBlock v)
    (isFn : ∀ v, v.index < m.graph.values.size → t.graph.isFunction v → m.graph.isFunction v)
    (ops : ∀ f, t.graph.isFunction f → ∀ arg ∈ t.graph.operandsOf f,
      arg ∈ m.graph.operandsOf f ∨ ∃ b, arg = some b ∧ t.graph.isBlock b)
    (current : ∀ st, t.current = some st →
      Builds m st ∨
      st.function.index < t.graph.values.size ∧
        (t.graph.isFunction st.function → t.graph.isBlock st.entry)) : Furnished t := by
  refine ⟨isIn, fun f known arg mem => ?_, fun st hit => ?_⟩
  · rcases ops f known arg mem with older | new
    · obtain ⟨b, eq, hit⟩ := fit.blocks f (isFn f (lt_of_mem_operandsOf older) known) arg older
      exact ⟨b, eq, hb b hit⟩
    · exact new
  · rcases current st hit with ⟨old, isOld, sameFunction, sameEntry⟩ | new
    · obtain ⟨into, entry⟩ := fit.current old isOld
      rw [← sameFunction, ← sameEntry]
      exact ⟨Nat.lt_of_lt_of_le into size, fun known => hb _ (entry (isFn _ into known))⟩
    · exact new

theorem note (fit : Furnished m) (graph : t.graph = m.graph)
    (current : ∀ st, t.current = some st → Builds m st) : Furnished t :=
  fit.grown (graph ▸ fit.listed) (Nat.le_of_eq (by rw [graph])) (fun _ => graph ▸ id) (fun _ _ => graph ▸ id)
    (fun _ _ _ mem => .inl (graph ▸ mem)) fun st hit => .inl (current st hit)

theorem rewired (fit : Furnished m) {refs : ValueId → List (Option ValueId) → List (Option ValueId)}
    (wired : m.graph.Rewired t.graph refs) (current : t.current = m.current)
    (bs : ∀ f, m.graph.isFunction f → ∀ arg ∈ refs f (m.graph.operandsOf f),
      arg ∈ m.graph.operandsOf f ∨ ∃ b, arg = some b ∧ m.graph.isBlock b) : Furnished t := by
  have hb : ∀ v, t.graph.isBlock v = m.graph.isBlock v := fun v => by
    rw [Graph.isBlock, wired.kind?, Graph.isBlock]
  have isFn : ∀ v, t.graph.isFunction v = m.graph.isFunction v := fun v => by
    rw [Graph.isFunction, wired.kind?, Graph.isFunction]
  refine fit.grown (wired.sameCode.closes fit.listed).listed (Nat.le_of_eq wired.size.symm)
    (fun v => (hb v).symm ▸ id) (fun v _ => isFn v ▸ id) ?_ fun st hit => .inl (builds_of_eq current st hit)
  intro f old arg mem
  rw [wired.operandsOf] at mem
  simp only [hb]
  exact bs f (isFn f ▸ old) arg mem

theorem added (fit : Furnished m) {k : Kind} (add : m.graph.Added t.graph v k ty)
    (current : t.current = m.current) (plain : k.insts = [] ∧ k.opcode? = none ∧ k.isFunction = false) :
    Furnished t := by
  refine fit.grown ((add.sameCode plain.1 plain.2.1).closes fit.listed).listed
    (add.size ▸ Nat.le_succ _) (fun w old => ?_) (fun w into old => ?_) ?_
    fun st hit => .inl (builds_of_eq current st hit)
  · obtain ⟨d, hit⟩ := block_of_isBlock old
    rw [Graph.isBlock, add.kind?_of_some hit]
    rfl
  · rw [Graph.isFunction, add.kind? w, if_neg fun eq => by simp [eq, add.fresh] at into] at old
    exact old
  · intro f _ arg mem
    rw [add.operandsOf] at mem
    exact .inl mem

theorem functionAdded (fit : Furnished m) {name : String} {argNames : List String} {args : List ValueId}
    (add : FunctionAdded m.graph t.graph f name ty argNames args) (current : t.current = m.current) :
    Furnished t := by
  refine fit.grown ((sameCode_of_functionAdded add).closes fit.listed).listed add.framed.size
    (fun w old => ?_) (fun w into old => ?_) ?_ fun st hit => .inl (builds_of_eq current st hit)
  · rw [Graph.isBlock, add.framed.kind? w (lt_of_isBlock old)]
    exact old
  · rw [Graph.isFunction, add.framed.kind? w into] at old
    exact old
  · intro f _ arg mem
    rw [add.operandsOf] at mem
    exact .inl mem

/-- A new block may open a function, which has blocks only from then on. -/
theorem createBlock (fit : Furnished m) {name : Option String}
    (done : Builder.createBlock f name m = .ok (b, t)) : Furnished t := by
  obtain ⟨add, current, eq, kept, fresh⟩ := createBlock_ok fit.listed.consistent done
  have hb : ∀ w, m.graph.isBlock w → t.graph.isBlock w := fun w known => by
    rw [Graph.isBlock, add.kind? w]
    split
    · rfl
    · exact known
  have isNew : t.graph.isBlock b := by
    rw [Graph.isBlock, add.kind?, if_pos rfl]
    rfl
  have isFn : ∀ w, t.graph.isFunction w → m.graph.isFunction w := fun w known => by
    rw [Graph.isFunction, add.kind? w] at known
    split at known
    · cases known
    · exact known
  have ops : ∀ f, t.graph.isFunction f → ∀ arg ∈ t.graph.operandsOf f,
      arg ∈ m.graph.operandsOf f ∨ ∃ b, arg = some b ∧ t.graph.isBlock b := by
    intro w _ arg mem
    rw [add.operandsOf] at mem
    split at mem
    · rcases mem_append.1 mem with older | new
      · exact .inl older
      · exact .inr ⟨b, mem_singleton.1 new, isNew⟩
    · exact .inl mem
  refine fit.grown ((sameCode_of_blockAdded add).closes fit.listed).listed
    (add.size ▸ Nat.le_succ _) hb (fun w _ => isFn w) ops fun st hit => ?_
  rw [eq] at hit
  by_cases known : ∃ old, m.current = some old ∧ old.function = f
  · obtain ⟨old, isOld, isFunc⟩ := known
    rw [kept old isOld isFunc] at hit
    exact .inl ⟨old, isOld, by cases hit; exact ⟨rfl, rfl⟩⟩
  · rw [not_exists] at known
    cases (fresh fun old isOld isFunc => known old ⟨isOld, isFunc⟩).symm.trans hit
    have isIn : some b ∈ t.graph.operandsOf f := by
      rw [add.operandsOf, if_pos rfl]
      exact mem_append_right _ (mem_singleton.2 rfl)
    refine .inr ⟨lt_of_mem_operandsOf isIn, fun isFunc => ?_⟩
    cases first : (t.graph.operandsOf f)[0]? with
    | none => exact isNew
    | some arg =>
      rcases ops f isFunc arg (mem_of_getElem? first) with older | ⟨entry, rfl, isEntry⟩
      · obtain ⟨entry, rfl, isEntry⟩ := fit.blocks f (isFn f isFunc) arg older
        exact hb entry isEntry
      · exact isEntry

theorem inserted (fit : Furnished m) {op : Opcode} {ops : List ValueId} {attr : Attr} {d : Block}
    (put : Inserted m t i op ty ops attr pt d) : Furnished t := by
  have eq : ∀ w, t.graph.isFunction w → w ≠ i ∧ m.graph.isFunction w := fun w old => by
    rw [Graph.isFunction, put.kind? w] at old
    split at old
    · cases old
    next other =>
      split at old
      · cases old
      · exact ⟨other, old⟩
  refine fit.grown (put.fills fit.listed).listed (put.size ▸ Nat.le_succ _) (fun w => put.isBlock w ▸ id)
    (fun w _ old => (eq w old).2) ?_ fun st hit => .inl (builds_of_eq (by rw [put.module]) st hit)
  intro f old arg mem
  rw [put.operandsOf, if_neg (eq f old).1] at mem
  exact .inl mem

end Furnished

/-- The next instruction, if its place is known, goes to the end of a block. -/
def Ends (m : Module) : Prop := ∀ point, m.insertPoint = some point → point.index = (m.graph.code point.block).length

structure Emits (m after : Module) : Prop where
  furnished : Furnished after
  size : m.graph.values.size ≤ after.graph.values.size
  ends : Ends m → Ends after ∧ ∀ block, ∃ made, after.graph.plainCode block = m.graph.plainCode block ++ made ∧
    made.Pairwise (·.index < ·.index) ∧
    ∀ inst ∈ made, m.graph.values.size ≤ inst.index ∧ inst.index < after.graph.values.size

namespace Emits

theorem refl (fit : Furnished m) : Emits m m :=
  ⟨fit, Nat.le_refl _, fun ends => ⟨ends, fun _ => ⟨[], (append_nil _).symm, .nil, nofun⟩⟩⟩

theorem trans (first : Emits m mid) (second : Emits mid t) : Emits m t := by
  refine ⟨second.furnished, Nat.le_trans first.size second.size, fun ends => ?_⟩
  obtain ⟨ends1, emitted1⟩ := first.ends ends
  obtain ⟨ends2, emitted2⟩ := second.ends ends1
  refine ⟨ends2, fun block => ?_⟩
  obtain ⟨made1, code1, ordered1, new1⟩ := emitted1 block
  obtain ⟨made2, code2, ordered2, new2⟩ := emitted2 block
  refine ⟨made1 ++ made2, by rw [code2, code1, append_assoc], ?_, fun i mem => ?_⟩
  · exact pairwise_append.2 ⟨ordered1, ordered2, fun a early b late =>
      Nat.lt_of_lt_of_le (new1 a early).2 (new2 b late).1⟩
  · rcases mem_append.1 mem with early | late
    · exact ⟨(new1 i early).1, Nat.lt_of_lt_of_le (new1 i early).2 second.size⟩
    · exact ⟨Nat.le_trans first.size (new2 i late).1, (new2 i late).2⟩

theorem of_same (fit : Furnished t) (eq : m.graph.SameCode t.graph)
    (ends : Ends m → Ends t) : Emits m t := by
  refine ⟨fit, eq.size, fun isLast => ⟨ends isLast, fun b => ⟨[], ?_, .nil, nofun⟩⟩⟩
  simp only [plainCode, eq.code, eq.opcode?, append_nil]

private theorem of_kept (fit : Furnished t) (eq : m.graph.SameCode t.graph)
    (place : t.insertPoint = m.insertPoint) : Emits m t :=
  of_same fit eq fun ends pt here => by rw [eq.code]; exact ends pt (place ▸ here)

end Emits

namespace Inserted
variable {op : Opcode} {ops : List ValueId} {attr : Attr} {d : Block}
  (put : Inserted m t i op ty ops attr pt d)
include put

private theorem filter_plain (isIn : m.graph.Listed) {part : List ValueId} (within : part ⊆ m.graph.code b) :
    part.filter (t.graph.opcode? · ≠ some .alloca) = part.filter (m.graph.opcode? · ≠ some .alloca) :=
  filter_congr fun v mem => by rw [put.opcode? (put.ne_of_lt (isIn.inside b v (within mem)))]

private theorem emits (fit : Furnished m) (plain : op ≠ .alloca) : Emits m t := by
  refine ⟨fit.inserted put, put.size ▸ Nat.le_succ _, fun ends => ?_⟩
  have last := ends pt put.here
  refine ⟨fun point' here => ?_, fun b => ?_⟩
  · rw [put.module] at here
    cases here
    rw [put.code, if_pos rfl, length_insertIdx_of_le_length (Nat.le_of_eq last), ← last]
  · have older := put.filter_plain fit.listed (List.Subset.refl (m.graph.code b))
    by_cases isHere : b = pt.block
    · subst isHere
      refine ⟨[i], ?_, pairwise_singleton _ _, fun v mem => ?_⟩
      · rw [plainCode, put.code_split.2, last, take_length, drop_length, filter_append, older, plainCode,
          filter_cons_of_pos (by simpa [put.opcode?_self] using plain)]
        rfl
      · rw [mem_singleton.1 mem, put.fresh, put.size]
        exact ⟨Nat.le_refl _, Nat.lt_succ_self _⟩
    · refine ⟨[], ?_, .nil, nofun⟩
      rw [plainCode, put.code, if_neg isHere, older, append_nil, plainCode]

end Inserted

namespace Allocated
variable {name : Option String} {entry : ValueId} {d : Block}

private theorem code_insertIdx (allocated : Allocated m t i ty name entry d) (b : ValueId) : t.graph.code b =
    if b = entry then (m.graph.code b).insertIdx (slotPosition m.graph entry) i else m.graph.code b :=
  allocated.inserted.code b

theorem emits (fit : Furnished m) (allocated : Allocated m t i ty name entry d) : Emits m t := by
  have put := allocated.inserted
  have within := slotPosition_le m.graph entry
  have placed : Furnished { m with insertPoint := some ⟨entry, slotPosition m.graph entry⟩ } :=
    fit.note rfl (builds_of_eq rfl)
  refine ⟨(placed.inserted put).note rfl (builds_of_eq rfl), put.size ▸ Nat.le_succ _,
    fun ends => ⟨fun pt here => ?_, fun b => ⟨[], ?_, .nil, nofun⟩⟩⟩
  · rw [allocated.moved] at here
    obtain ⟨old, place, rfl⟩ := Option.map_eq_some_iff.1 here
    have last := ends old place
    rw [allocated.code_insertIdx]
    split
    next both => rw [if_pos both.1, length_insertIdx_of_le_length (both.1 ▸ within), last]
    next apart =>
      rw [if_neg fun eq => apart ⟨eq, by rw [last, eq]; exact within⟩]
      exact last
  · have filtered : (m.graph.code b).filter (t.graph.opcode? · ≠ some .alloca) = m.graph.plainCode b :=
      put.filter_plain placed.listed (List.Subset.refl (m.graph.code b))
    rw [append_nil, plainCode, allocated.code_insertIdx]
    split
    next isEntry =>
      subst isEntry
      have isSlot : t.graph.opcode? i = some .alloca := put.opcode?_self
      rw [insertIdx_eq_append _ _ _ within, filter_append, filter_cons_of_neg (by simpa using isSlot),
        ← filter_append, take_append_drop, filtered]
    next => exact filtered

end Allocated

/-- A slot stands directly before the terminator of the entry block or at its end, and the insertion point splits its
block as before. -/
structure Hoisted (m after : Module) (slot entry : ValueId) (old new : InsertPoint) : Prop where
  fresh : slot.index = m.graph.values.size
  isSlot : after.graph.opcode? slot = some .alloca
  home : ∃ front, m.graph.code entry = front ++ (m.graph.lastOf entry).toList ∧
    after.graph.code entry = front ++ slot :: (m.graph.lastOf entry).toList ∧
    (old.block = entry → (slot ∈ (after.graph.code entry).take new.index ↔ front.length ≤ old.index))
  others : ∀ block, block ≠ entry → after.graph.code block = m.graph.code block
  place : after.insertPoint = some new
  stays : new.block = old.block
  before : ((after.graph.code new.block).take new.index).filter (· ≠ slot) = (m.graph.code old.block).take old.index
  behind : ((after.graph.code new.block).drop new.index).filter (· ≠ slot) = (m.graph.code old.block).drop old.index

private theorem drop_slotPosition (g : Graph) (entry : ValueId) :
    (g.code entry).drop (slotPosition g entry) = (g.lastOf entry).toList := by
  unfold slotPosition
  cases ends : g.lastOf entry with
  | none => simp
  | some last =>
    have isLast := (Option.filter_eq_some_iff.1 ends).1
    obtain ⟨front, cs⟩ := getLast?_eq_some_iff.1 isLast
    simp [cs]

private theorem Allocated.hoisted {name : Option String} {entry : ValueId} {d : Block} (isIn : m.graph.Listed)
    (allocated : Allocated m t i ty name entry d) (here : m.insertPoint = some pt) :
    ∃ new, Hoisted m t i entry pt new := by
  have put := allocated.inserted
  have within := slotPosition_le m.graph entry
  have cs := allocated.code_insertIdx
  have unlisted : ∀ b, i ∉ m.graph.code b := fun b mem =>
    put.ne_of_lt (isIn.inside b i mem) rfl
  have place : t.insertPoint = some ⟨pt.block, if pt.block = entry ∧ slotPosition m.graph entry ≤ pt.index
      then pt.index + 1 else pt.index⟩ := by
    rw [allocated.moved, here, Option.map_some]
    split <;> rfl
  have split : pt.block = entry → _ := fun _ => split_insertIdx (unlisted entry) within pt.index
  refine ⟨_, congrArg ValueId.index put.fresh, put.opcode?_self,
    ⟨(m.graph.code entry).take (slotPosition m.graph entry), ?_, ?_, fun isEntry => ?_⟩,
    fun b w => by rw [cs, if_neg w], place, rfl, ?_, ?_⟩
  · rw [← drop_slotPosition, take_append_drop]
  · rw [cs, if_pos rfl, insertIdx_eq_append _ _ _ within, drop_slotPosition]
  · rw [cs, if_pos rfl, length_take_of_le within]
    simpa only [isEntry, true_and] using (split isEntry).2.2
  · by_cases isEntry : pt.block = entry
    · simpa only [cs, isEntry, true_and, if_true] using (split isEntry).1
    · simpa [cs, isEntry] using fun v mem => ne_of_mem_of_not_mem (mem_of_mem_take mem) (unlisted pt.block)
  · by_cases isEntry : pt.block = entry
    · simpa only [cs, isEntry, true_and, if_true] using (split isEntry).2.1
    · simpa [cs, isEntry] using fun v mem => ne_of_mem_of_not_mem (mem_of_mem_drop mem) (unlisted pt.block)

private theorem addValue_emits {k : Kind} {lim : Option Nat} (fit : Furnished m)
    (plain : k.insts = [] ∧ k.opcode? = none ∧ k.isFunction = false)
    (done : addValue k ty lim m = .ok (v, t)) : Emits m t := by
  obtain ⟨rfl, rfl⟩ := addValue_ok.1 done
  have add := fit.listed.consistent.add_added k ty lim
  exact .of_kept (fit.added add rfl plain) (add.sameCode plain.1 plain.2.1) rfl

private theorem emits_upkeep : Upkeep Furnished Emits fun _ _ => True where
  refl := .refl
  trans := .trans
  holds emits := emits.furnished
  stays _ _ := trivial
  insert fit _ plain _ done := by
    obtain ⟨_, _, put⟩ := insertInst_ok fit.listed.consistent done
    exact ⟨put.emits fit plain, trivial⟩
  constant fit done := ⟨addValue_emits fit ⟨rfl, rfl, rfl⟩ done, trivial⟩

private theorem createGlobal_emits {name : String} {initial : Option ValueId} (furnished : Furnished m)
    (done : createGlobal name ty initial m = .ok (v, t)) : Emits m t := by
  obtain ⟨global, made, adding, run⟩ := bind_ok.1 done
  have first := addValue_emits furnished ⟨rfl, rfl, rfl⟩ adding
  cases initial with
  | none =>
    have run := modify_bind_ok.1 run
    obtain ⟨_, rfl⟩ := pure_ok.1 run
    exact ⟨first.furnished.note rfl (builds_of_eq rfl), first.size, first.ends⟩
  | some val =>
    obtain ⟨_, linked, linking, run⟩ := bind_ok.1 run
    obtain ⟨rewired, eq⟩ := addOperand_ok first.furnished.listed.consistent linking
    have run := modify_bind_ok.1 run
    obtain ⟨_, rfl⟩ := pure_ok.1 run
    have unlinked : ¬ made.graph.isFunction global := by
      obtain ⟨rfl, rfl⟩ := addValue_ok.1 adding
      simp [isFunction, (furnished.listed.consistent.add_added _ _ _).kind?, Kind.isFunction]
    have furnished : Furnished linked := first.furnished.rewired rewired (by rw [eq]) fun f known operand mem => by
      rw [if_neg fun isGlobal : f = global => unlinked (isGlobal ▸ known)] at mem
      exact .inl mem
    have second := first.trans (.of_kept furnished rewired.sameCode (by rw [eq]))
    exact ⟨furnished.note rfl (builds_of_eq rfl), second.size, second.ends⟩

/-- A terminator enters its block among the operands of those it leads to. -/
private theorem Closed.emits {op : Opcode} {ops dests : List ValueId} {d : Block} (fit : Furnished m)
    (plain : op ≠ .alloca) (closed : Closed m t i op ops dests pt d) : Emits m t := by
  obtain ⟨mid, put, wired, eq⟩ := closed.inserted
  have first := put.emits fit plain
  have hb : mid.graph.isBlock pt.block := by
    rw [put.isBlock, Graph.isBlock, put.block]
    rfl
  refine first.trans (.of_kept (first.furnished.rewired wired (by rw [eq]) fun f _ arg mem => ?_)
    wired.sameCode (by rw [eq]))
  rcases mem_append.1 mem with older | edge
  · exact .inl older
  · obtain ⟨_, _, rfl⟩ := mem_map.1 edge
    exact .inr ⟨pt.block, rfl, hb⟩

/-- Every call, if it enters a block at its end. -/
private theorem Call.emits (fit : Furnished m)
    (last : ∀ place index, call = .enterAt place index → index = (m.graph.code place).length)
    (done : call.make m = .ok (i, t)) : Emits m t := by
  have valid := fit.listed.consistent
  have ent : ∀ place index, index = (m.graph.code place).length →
      Emits m { m with insertPoint := some ⟨place, index⟩ } := by
    rintro place index rfl
    refine .of_same (fit.note rfl (builds_of_eq rfl))
      ⟨valid, Nat.le_refl _, fun _ => rfl, fun _ => rfl⟩ fun _ pt here => ?_
    cases here
    rfl
  cases call with
  | function name ty argNames =>
    obtain ⟨_, add, eq⟩ := createFunction_ok valid done
    exact .of_kept (fit.functionAdded add (by rw [eq])) (sameCode_of_functionAdded add) (by rw [eq])
  | block f name =>
    obtain ⟨add, _, eq, _⟩ := createBlock_ok valid done
    exact .of_kept (fit.createBlock done) (sameCode_of_blockAdded add) (by rw [eq])
  | enter place =>
    obtain ⟨_, mid, entering, run⟩ := bind_ok.1 done
    obtain ⟨_, rfl⟩ := pure_ok.1 run
    rw [(setInsertPoint_ok entering).2]
    exact ent place _ rfl
  | enterAt place index =>
    obtain ⟨_, mid, entering, run⟩ := bind_ok.1 done
    obtain ⟨_, rfl⟩ := pure_ok.1 run
    obtain ⟨_, _, entering⟩ := ask_bind_ok.1 entering
    rw [modify_ok.1 (ensure_bind_ok.1 entering).2]
    exact ent place index (last place index rfl)
  | constInt val ty | constStr val | argument index name ty =>
    exact addValue_emits fit ⟨rfl, rfl, rfl⟩ done
  | global name ty initial => exact createGlobal_emits fit done
  | alloca ty name =>
    obtain ⟨_, _, _, allocated⟩ := alloca_ok valid done
    exact allocated.emits fit
  | load ptr => exact (emits_upkeep.load fit trivial done).1
  | store val ptr => exact emits_upkeep.store fit trivial trivial done
  | valueOf val => exact (emits_upkeep.valueOf fit trivial done).1
  | assign slot source => exact (emits_upkeep.assign fit trivial trivial done).1
  | cast op val ty =>
    obtain ⟨isCast, made⟩ := ensure_bind_ok.1 done
    obtain ⟨_, _, put⟩ := insertInst_ok valid made
    exact put.emits fit (by rintro rfl; cases isCast)
  | convert val ty => exact (emits_upkeep.convert fit trivial done).1
  | binary op lhs rhs => exact (emits_upkeep.binary fit trivial trivial done).1
  | icmp pred lhs rhs => exact (emits_upkeep.icmp fit trivial trivial done).1
  | call callee args => exact (emits_upkeep.call fit trivial (fun _ _ => trivial) done).1
  | jump dest =>
    obtain ⟨_, _, _, closed⟩ := jump_ok valid done
    exact closed.emits fit (by decide)
  | branch cond thenBlock elseBlock =>
    obtain ⟨_, _, _, closed⟩ := branch_ok valid done
    exact closed.emits fit (by decide)
  | ret val =>
    obtain ⟨_, _, put⟩ := insertInst_ok valid done
    exact put.emits fit (by decide)

private theorem Reached.furnished (path : Reached m) : Furnished m := by
  induction path with
  | start name =>
    refine ⟨⟨.empty, fun b i isIn => ?_⟩, fun f known => ?_, nofun⟩
    · simp [Graph.code, Graph.kind?] at isIn
    · simp [isFunction, Graph.kind?] at known
  | @call m t call v _ done ih =>
    cases call with
    | enterAt place index =>
      obtain ⟨_, mid, entering, run⟩ := bind_ok.1 done
      obtain ⟨_, rfl⟩ := pure_ok.1 run
      obtain ⟨_, _, entering⟩ := ask_bind_ok.1 entering
      rw [modify_ok.1 (ensure_bind_ok.1 entering).2]
      exact ih.note rfl (builds_of_eq rfl)
    | _ => exact (Call.emits ih (by rintro _ _ ⟨⟩) done).furnished
  | @moveBlock m t f b _ _ done ih =>
    obtain ⟨rewired, eq⟩ := moveBlockToEnd_ok ih.listed.consistent done
    refine ih.rewired rewired (by rw [eq]) fun v _ operand mem => .inl ?_
    split at mem
    · exact (perm_moved ..).mem_iff.1 mem
    · exact mem
  | note _ graph current ih => exact ih.note graph current

def Appends (calls : List Call) (m : Module) : Prop :=
  ∀ earlier place index later middle, calls = earlier ++ .enterAt place index :: later →
    earlier.forM Call.run m = .ok ((), middle) → index = (middle.graph.code place).length

private theorem emits_forM (fit : Furnished m) (appends : Appends calls m)
    (done : calls.forM Call.run m = .ok (res, t)) : Emits m t := by
  induction calls generalizing m with
  | nil =>
    obtain ⟨_, rfl⟩ := pure_ok.1 done
    exact .refl fit
  | cons call calls ih =>
    obtain ⟨_, mid, one, more⟩ := bind_ok.1 done
    obtain ⟨v, made⟩ := Call.run_ok one
    have first := Call.emits fit (fun place index eq => appends [] place index calls m (eq ▸ rfl) rfl) made
    refine first.trans (ih first.furnished ?_ more)
    intro pre place index later last split ran
    exact appends (call :: pre) place index later last (split ▸ rfl) (bind_ok.2 ⟨(), mid, one, ran⟩)

/-- In every module that calls of the builder make, a slot can be made while a function is built, wherever in a block the
insertion point is (as far as indices of 64 bits reach): it is put into the entry block before the terminator, other
blocks stay, and the insertion point keeps its place among the other instructions. So with any further calls that put in
code at the end of blocks, whatever is no slot stands in the order in which it was made. -/
theorem alloca_keeps_order (reached : Reached m) :
    (∀ state point ty name, m.current = some state → m.graph.isFunction state.function → ty.isVoid = false →
      m.insertPoint = some point → point.index ≤ (m.graph.code point.block).length →
      point.index + 1 < InsertPoint.indexBound →
      ∃ slot after new, alloca ty name m = .ok (slot, after) ∧ Hoisted m after slot state.entry point new) ∧
    ∀ calls after, Ends m → Appends calls m → calls.forM Call.run m = .ok ((), after) → ∀ block, ∃ made,
      after.graph.plainCode block = m.graph.plainCode block ++ made ∧ made.Pairwise (·.index < ·.index) ∧
        ∀ inst ∈ made, m.graph.values.size ≤ inst.index := by
  have furnished := reached.furnished
  refine ⟨?_, fun calls after ends appends done block => ?_⟩
  · intro state point ty name current isFunc notVoid here _ room
    obtain ⟨data, isEntry⟩ := block_of_isBlock ((furnished.current state current).2 isFunc)
    obtain ⟨slot, after, done, allocated⟩ :=
      alloca_runs furnished.listed.consistent current notVoid isEntry here fun _ => room
    obtain ⟨new, hoisted⟩ := allocated.hoisted furnished.listed here
    exact ⟨slot, after, new, done, hoisted⟩
  · obtain ⟨made, code, ordered, new⟩ := ((emits_forM furnished appends done).ends ends).2 block
    exact ⟨made, code, ordered, fun inst member => (new inst member).1⟩

theorem Reached.forM (path : Reached m) (done : calls.forM Call.run m = .ok (res, t)) : Reached t := by
  induction calls generalizing m with
  | nil =>
    obtain ⟨_, rfl⟩ := pure_ok.1 done
    exact path
  | cons call calls ih =>
    obtain ⟨_, mid, one, more⟩ := bind_ok.1 done
    obtain ⟨v, made⟩ := Call.run_ok one
    exact ih (.call path made) more

def leavesEntry : List Call :=
  [.function "f" (.func [] .void) [], .block ⟨0⟩ none, .block ⟨0⟩ none, .enter ⟨1⟩, .alloca .int32 none, .jump ⟨2⟩, .enter ⟨2⟩]

theorem alloca_keeps_order_before_jump : ∃ m slot after new, leavesEntry.forM Call.run { name := "m" } = .ok ((), m) ∧
    m.graph.code ⟨1⟩ = [⟨3⟩, ⟨4⟩] ∧ alloca .int32 none m = .ok (slot, after) ∧ Hoisted m after slot ⟨1⟩ ⟨⟨2⟩, 0⟩ new := by
  obtain ⟨⟨_, m⟩, done, isRead⟩ := @ok_of_toOption_map _ _ _ (leavesEntry.forM Call.run { name := "m" })
    (fun pair => (pair.2.current, pair.2.graph.isFunction ⟨0⟩, pair.2.insertPoint, pair.2.graph.code ⟨1⟩))
    (some ⟨⟨0⟩, ⟨1⟩, none, none⟩, true, some ⟨⟨2⟩, 0⟩, [⟨3⟩, ⟨4⟩]) (by decide +kernel)
  obtain ⟨current, isFunc, here, code⟩ : _ ∧ _ ∧ _ ∧ _ := by simpa only [Prod.ext_iff] using isRead
  obtain ⟨slot, after, new, made, hoisted⟩ := (alloca_keeps_order (Reached.forM (.start "m") done)).1
    ⟨⟨0⟩, ⟨1⟩, none, none⟩ ⟨⟨2⟩, 0⟩ .int32 none current isFunc rfl here (Nat.zero_le _) (by decide)
  exact ⟨m, slot, after, new, done, code, made, hoisted⟩

end Builder
end Midend
