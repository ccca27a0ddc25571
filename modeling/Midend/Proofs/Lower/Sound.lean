import Midend.Proofs.Flow.Cover
import Midend.Proofs.Lower.Function

/-! A function that is being built refers only to what is there. Names stand for stack slots
and for values that all code may use, instructions use results that are at hand where they
stand, and blocks record the edges that lead to them. Every step of the builder keeps this. -/
namespace Midend
open List Graph

namespace Graph
variable {g t : Graph} {entry fn v : ValueId} {functions globals : List ValueId}
variable {d : Inst} {b i : ValueId} {base : Graph}

private theorem Grows.isTerminator_eq (grows : g.Grows entry t) (hit : g.kind? v = some (.inst d)) :
    t.isTerminator v = g.isTerminator v := by
  rw [Graph.isTerminator, opcode?_eq (grows.inst hit), Graph.isTerminator, opcode?_eq hit]

theorem Grows.result (grows : g.Grows entry t) (res : g.Result v) : t.Result v :=
  res.imp fun _ hit => ⟨grows.inst hit.1, hit.2⟩

private theorem Skeleton.ne_func (skel : base.Skeleton g fn entry) (mem : b ∈ g.layout fn) : b ≠ fn := by
  rintro rfl
  have isBlock := ((skel.laid.blocks b).1 mem).2
  rw [skel.isBlock_func] at isBlock
  cases isBlock

theorem Grows.shared (grows : g.Grows entry t) (shared : g.Shared functions globals fn v) :
    t.Shared functions globals fn v :=
  shared.stays (fun v k hit notBlock _ => grows.kind? v k hit notBlock) (List.Subset.refl _)
    (List.Subset.refl _)

theorem Grows.operand (grows : g.Grows entry t) (layout : g.layout fn ⊆ t.layout fn)
    {slot : Option ValueId} (isInst : g.kind? i = some (.inst d))
    (operand : g.Operand functions globals fn i slot) : t.Operand functions globals fn i slot := by
  cases operand with
  | shared shared => exact .shared (grows.shared shared)
  | target ends into => exact .target (by rwa [grows.isTerminator_eq isInst]) (layout into)
  | result hit inner => exact .result (grows.inst hit) (by rwa [grows.isTerminator_eq hit])

theorem Shared.plain (shared : g.Shared functions globals fn v) : g.Plain v := by
  obtain ⟨k, hit, notBlock, _⟩ := shared.data
  exact plain_of_kind? hit notBlock

private theorem Shared.not_inst (shared : g.Shared functions globals fn v) : g.kind? v ≠ some (.inst d) := by
  obtain ⟨k, hit, _, notInst⟩ := shared.data
  intro isInst
  cases hit.symm.trans isInst
  cases notInst

def Sorted (g : Graph) (block : ValueId) : Prop :=
  ((g.code block).filter fun v => g.opcode? v ≠ some .alloca).Pairwise (·.index < ·.index)

theorem Sorted.congr (sorted : g.Sorted b) (cs : t.code b = g.code b)
    (opcode : ∀ v ∈ g.code b, t.opcode? v = g.opcode? v) : t.Sorted b := by
  unfold Sorted
  rw [cs, filter_congr fun v mem => by rw [opcode v mem]]
  exact sorted

theorem Skeleton.mem_code (skel : base.Skeleton g fn entry) (skeleton' : base.Skeleton t fn entry)
    (grows : g.Grows entry t) (mem : b ∈ t.layout fn) (isIn : i ∈ t.code b)
    (old : i.index < g.values.size) : b ∈ g.layout fn ∧ i ∈ g.code b := by
  obtain ⟨above, d, hit, rfl⟩ :=
    skeleton'.coded.listed b i ((skeleton'.laid.blocks b).1 mem).1 isIn
  obtain ⟨home, was⟩ := skel.coded.homes i d above (grows.inst_of old hit)
  obtain ⟨parent, isParent⟩ := block_of_mem_code was
  exact ⟨(skel.laid.blocks _).2 ⟨home, by rw [isBlock, isParent]; rfl⟩, was⟩

end Graph

namespace Builder.Inserted
variable {m t : Module} {i : ValueId} {op : Opcode} {ty : Ty} {operands : List ValueId}
  {attr : Attr} {point : InsertPoint} {d : Block}

section
variable (put : Inserted m t i op ty operands attr point d)
include put

private theorem code_sublist (b : ValueId) : (m.graph.code b).Sublist (t.graph.code b) := by
  by_cases isHere : b = point.block
  · obtain ⟨before, now⟩ := put.code_split
    rw [isHere, now]
    nth_rewrite 1 [before]
    exact (sublist_cons_self _ _).append_left _
  · rw [put.code, if_neg isHere]

private theorem mem_old {fn : ValueId}
    (layout : t.graph.layout fn = m.graph.layout fn) (b : ValueId) (mem : b ∈ t.graph.layout fn)
    (v : ValueId) (isIn : v ∈ t.graph.code b) (old : v.index < m.graph.values.size) :
    b ∈ m.graph.layout fn ∧ v ∈ m.graph.code b := by
  refine ⟨layout ▸ mem, ?_⟩
  rcases (put.mem_code b v).1 isIn with ⟨_, rfl⟩ | was
  · rw [put.fresh] at old
    exact absurd old (Nat.lt_irrefl _)
  · exact was

theorem sorted {block : ValueId}
    (into : ∀ v ∈ m.graph.code block, v.index < m.graph.values.size) (sorted : m.graph.Sorted block)
    (atEnd : block = point.block → point.index = (m.graph.code point.block).length ∨ op = .alloca) :
    t.graph.Sorted block := by
  have eq : ∀ v ∈ m.graph.code block, t.graph.opcode? v = m.graph.opcode? v :=
    fun v mem => put.opcode? (put.ne_of_lt (into v mem))
  by_cases isHere : block = point.block
  · subst isHere
    rcases atEnd rfl with last | isSlot
    · unfold Graph.Sorted
      rw [put.code_end last, filter_append, filter_congr fun v mem => by rw [eq v mem]]
      refine pairwise_append.2 ⟨sorted, (pairwise_singleton _ i).sublist filter_sublist, ?_⟩
      intro a isOld b isNew
      rw [mem_singleton.1 (mem_of_mem_filter isNew), put.fresh]
      exact into a (mem_of_mem_filter isOld)
    · obtain ⟨before, now⟩ := put.code_split
      unfold Graph.Sorted
      have slot : t.graph.opcode? i = some .alloca := by
        rw [put.opcode?_self, isSlot]
      rw [now, filter_append, filter_cons_of_neg (by simp [slot]), ← filter_append, ← before,
        filter_congr fun v mem => by rw [eq v mem]]
      exact sorted
  · exact sorted.congr (by rw [put.code, if_neg isHere]) eq

private theorem lastOf_inner
    (inner : op.isTerminator = false) (b : ValueId) (into : ∀ v ∈ m.graph.code b, v.index < m.graph.values.size) :
    t.graph.lastOf b = m.graph.lastOf b := by
  have eq : ∀ v ∈ m.graph.code b, t.graph.opcode? v = m.graph.opcode? v :=
    fun v mem => put.opcode? (put.ne_of_lt (into v mem))
  by_cases isHere : b = point.block
  · obtain ⟨before, now⟩ := put.code_split
    rw [isHere] at eq ⊢
    cases back : (m.graph.code point.block).drop point.index with
    | nil =>
      have atEnd : point.index = (m.graph.code point.block).length := by
        have bound := put.bound
        rw [← code_of_kind? put.block] at bound
        exact Nat.le_antisymm bound (drop_eq_nil_iff.1 back)
      rw [put.opened atEnd, Graph.lastOf, put.code_end atEnd, getLast?_concat, Option.filter_some, if_neg]
      rw [isTerminator_of_opcode? put.opcode?_self, inner]
      exact Bool.false_ne_true
    | cons next rest =>
      have last : (t.graph.code point.block).getLast? = (m.graph.code point.block).getLast? := by
        rw [now, back]
        nth_rewrite 2 [before]
        rw [back]
        simp [getLast?_cons_cons]
      rw [Graph.lastOf, last, Graph.lastOf]
      cases ends : (m.graph.code point.block).getLast? with
      | none => rfl
      | some final =>
        rw [Option.filter_some, Option.filter_some, Graph.isTerminator, eq final (mem_of_getLast? ends),
          Graph.isTerminator]
  · exact lastOf_congr (by rw [put.code, if_neg isHere]) eq

end

end Builder.Inserted

namespace Site
open Builder
variable {u : Site} {av : ValueId → ValueId → Prop} {st : FunctionState} {m t : Module}
  {here there v : ValueId} {g : Graph}
variable {avail' : ValueId → ValueId → Prop} {high low : Nat} {b i dest : ValueId} {ty : Ty}
  {n : Option String}

def Shared (site : Site) (g : Graph) (v : ValueId) : Prop :=
  g.Shared site.functions site.globals site.func v

def Known (site : Site) (g : Graph) (v : ValueId) : Prop :=
  site.Shared g v ∨ site.base.values.size ≤ v.index ∧ g.opcode? v = some .alloca

def AtHand (site : Site) (avail : ValueId → ValueId → Prop) (g : Graph) (here v : ValueId) : Prop :=
  v ∈ g.code here ∨ avail here v ∨ here ≠ site.entry ∧ v ∈ g.code site.entry

def Ahead (site : Site) (avail : ValueId → ValueId → Prop) (g : Graph) (v block inst : ValueId) : Prop :=
  [v, inst].Sublist (g.code block) ∨ avail block v ∨ v ∈ g.code site.entry

def Leads (site : Site) (avail : ValueId → ValueId → Prop) (g : Graph) (v : ValueId) (low high : Nat) : Prop :=
  ∀ block ∈ g.layout site.func, block ≠ site.entry → ∀ inst ∈ g.code block, low ≤ inst.index → inst.index < high →
    site.Ahead avail g v block inst

def Held (site : Site) (avail : ValueId → ValueId → Prop) (g : Graph) (here v : ValueId) : Prop :=
  site.Shared g v ∨ site.base.values.size ≤ v.index ∧ g.Result v ∧ site.AtHand avail g here v ∧
    site.Leads avail g v (v.index + 1) g.values.size

structure Fed (site : Site) (avail : ValueId → ValueId → Prop) (g : Graph) (block inst : ValueId) : Prop where
  operands : ∀ slot ∈ g.operandsOf inst, g.Operand site.functions site.globals site.func inst slot
  results : ∀ v data, some v ∈ g.operandsOf inst → g.kind? v = some (.inst data) →
    site.base.values.size ≤ v.index ∧
      ([v, inst].Sublist (g.code block) ∨ avail block v ∨ block ≠ site.entry ∧ v ∈ g.code site.entry)
  leads : ∀ v data, some v ∈ g.operandsOf inst → g.kind? v = some (.inst data) →
    site.Leads avail g v (v.index + 1) inst.index

structure Traced (site : Site) (avail : ValueId → ValueId → Prop) (g : Graph) : Prop where
  bare : ∀ v, ¬ avail site.entry v
  inner : ∀ block v, avail block v → g.Result v
  edges : ∀ block ∈ g.layout site.func, ∀ next ∈ g.exits block, ∀ v, avail next v →
    avail block v ∨ v ∈ g.code block
  fed : ∀ block ∈ g.layout site.func, ∀ inst ∈ g.code block, site.Fed avail g block inst
  recorded : g.Recorded site.func
  sorted : ∀ block ∈ g.layout site.func, g.Sorted block

structure Sound (site : Site) (avail : ValueId → ValueId → Prop) (state : FunctionState) (m : Module)
    (here : ValueId) : Prop extends site.Building m.symbols state m here, site.Traced avail m.graph where
  known : m.symbols.All (site.Known m.graph)
  callees : ∀ f ∈ m.functions, site.Shared m.graph f
  result : ∀ slot ∈ state.returnSlot, site.Known m.graph slot

theorem Traced.covered (traced : u.Traced av g) : g.Covered u.func u.entry av :=
  ⟨traced.bare, traced.inner, traced.edges, fun b mem i isIn v d used hit =>
    ((traced.fed b mem i isIn).results v d used hit).2⟩

theorem Leads.mono {t : Graph} (leads : u.Leads av g v low high)
    (old : ∀ b ∈ t.layout u.func, ∀ i ∈ t.code b, i.index < high →
      b ∈ g.layout u.func ∧ i ∈ g.code b)
    (cs : ∀ b, b ≠ u.entry → (g.code b).Sublist (t.code b))
    (first : g.code u.entry ⊆ t.code u.entry)
    (agree : ∀ b ∈ g.layout u.func, av b v → avail' b v) : u.Leads avail' t v low high := by
  intro b mem notEntry i isIn early late
  obtain ⟨into, was⟩ := old b mem i isIn late
  rcases leads b into notEntry i was early late with order | known | isFirst
  · exact .inl (order.trans (cs b notEntry))
  · exact .inr (.inl (agree b into known))
  · exact .inr (.inr (first isFirst))

theorem Leads.append {middle : Nat} (first : u.Leads av g v low middle)
    (second : u.Leads av g v middle high) : u.Leads av g v low high := by
  intro b mem notEntry i isIn early late
  rcases Nat.lt_or_ge i.index middle with before | behind
  · exact first b mem notEntry i isIn early before
  · exact second b mem notEntry i isIn behind late

theorem Traced.grown {t : Graph} (traced : u.Traced av g)
    (skel : u.base.Skeleton g u.func u.entry) (grows : g.Grows u.entry t)
    (layout : g.layout u.func ⊆ t.layout u.func) (cs : ∀ block, (g.code block).Sublist (t.code block))
    (edges : ∀ block ∈ t.layout u.func, ∀ next ∈ t.exits block,
      (block ∈ g.layout u.func ∧ next ∈ g.exits block) ∨ ∀ v, av next v → av block v ∨ v ∈ t.code block)
    (fed : ∀ block ∈ t.layout u.func, ∀ inst ∈ t.code block,
      (block ∈ g.layout u.func ∧ inst ∈ g.code block) ∨ g.values.size ≤ inst.index ∧ u.Fed av t block inst)
    (recorded : t.Recorded u.func) (sorted : ∀ block ∈ t.layout u.func, t.Sorted block) :
    u.Traced av t where
  bare := traced.bare
  inner := fun block v known => grows.result (traced.inner block v known)
  edges := by
    intro block mem next goes v known
    rcases edges block mem next goes with ⟨old, leads⟩ | new
    · exact (traced.edges block old next leads v known).imp_right fun isIn => (cs block).subset isIn
    · exact new v known
  fed := by
    intro block mem inst isIn
    rcases fed block mem inst isIn with ⟨old, was⟩ | new
    · have above := ((skel.laid.blocks block).1 old).1
      obtain ⟨_, d, isInst, _⟩ := skel.coded.listed block inst above was
      have before := traced.fed block old inst was
      have operands := grows.operandsOf inst d isInst
      refine ⟨?_, ?_, ?_⟩
      · intro slot has
        rw [operands] at has
        exact grows.operand layout isInst (before.operands slot has)
      · intro v d used found
        rw [operands] at used
        have into := skel.consistent.operand_lt used
        obtain ⟨new, early | known | ⟨other, first⟩⟩ := before.results v d used (grows.inst_of into found)
        · exact ⟨new, .inl (early.trans (cs block))⟩
        · exact ⟨new, .inr (.inl known)⟩
        · exact ⟨new, .inr (.inr ⟨other, (cs _).subset first⟩)⟩
      · intro v d used found
        rw [operands] at used
        have into := skel.consistent.operand_lt used
        refine (before.leads v d used (grows.inst_of into found)).mono ?_ (fun block _ => cs block)
          (cs _).subset fun _ _ known => known
        intro block mem other isIn pre
        rcases fed block mem other isIn with wasThere | ⟨new, _⟩
        · exact wasThere
        · exact absurd (Nat.lt_of_lt_of_le pre (Nat.le_of_lt (lt_of_kind? isInst))) (Nat.not_lt_of_le new)
    · exact new.2
  recorded := recorded
  sorted := sorted

theorem Known.grown (known : u.Known g v) {t : Graph} (grows : g.Grows u.entry t) : u.Known t v :=
  known.imp grows.shared fun slot => ⟨slot.1, grows.opcode? slot.2⟩

theorem Sound.held (sound : u.Sound av st m here) (known : u.Known m.graph v) :
    u.Held av m.graph here v := by
  rcases known with shared | ⟨above, isSlot⟩
  · exact .inl shared
  · obtain ⟨d, hit, slot⟩ := inst_of_opcode? isSlot
    have home := sound.skeleton.coded.slotsIn v d above hit slot
    have mem := (sound.skeleton.coded.homes v d above hit).2
    rw [home] at mem
    refine .inr ⟨above, ⟨d, hit, by rw [slot]; rfl⟩, ?_, fun _ _ _ _ _ _ _ => .inr (.inr mem)⟩
    by_cases first : here = u.entry
    · exact .inl (first ▸ mem)
    · exact .inr (.inr ⟨first, mem⟩)

theorem Held.plain (held : u.Held av g here v) : g.Plain v := by
  rcases held with shared | ⟨_, ⟨d, hit, _⟩, _⟩
  · exact shared.plain
  · exact plain_of_kind? hit rfl

theorem Sound.grown (sound : u.Sound av st m here) (made : u.Building m.symbols st t there)
    (eq : SameNames m t) (grows : m.graph.Grows u.entry t.graph)
    (traced : u.Traced avail' t.graph) : u.Sound avail' st t there where
  toBuilding := by rwa [eq.symbols]
  toTraced := traced
  known := eq.symbols ▸ sound.known.mono fun _ known => known.grown grows
  callees := eq.functions ▸ fun f isIn => grows.shared (sound.callees f isIn)
  result := fun slot isSlot => (sound.result slot isSlot).grown grows

structure Later (site : Site) (avail : ValueId → ValueId → Prop) (g : Graph)
    (avail' : ValueId → ValueId → Prop) (after : Graph) : Prop where
  grows : g.Grows site.entry after
  layout : g.layout site.func ⊆ after.layout site.func
  first : g.code site.entry ⊆ after.code site.entry
  agree : ∀ block v, block.index < g.values.size → (avail' block v ↔ avail block v)

structure Onward (site : Site) (state : FunctionState) (avail : ValueId → ValueId → Prop) (m : Module)
    (here : ValueId) (avail' : ValueId → ValueId → Prop) (after : Module) (there : ValueId) : Prop
    extends site.Later avail m.graph avail' after.graph where
  symbols : after.symbols = m.symbols
  skeleton : site.base.Skeleton m.graph site.func site.entry
  sound : site.Sound avail' state after there
  carried : ∀ v, m.graph.Result v → v ∈ m.graph.code here ∨ avail here v →
    v ∈ after.graph.code there ∨ avail' there v
  leads : ∀ v, m.graph.Result v → v ∈ m.graph.code here ∨ avail here v →
    site.Leads avail' after.graph v m.graph.values.size after.graph.values.size

section Onward
variable {avail' avail'' : ValueId → ValueId → Prop} {middle : Module} {mid : ValueId}

theorem Later.refl (u : Site) (av : ValueId → ValueId → Prop) (g : Graph) : u.Later av g av g :=
  ⟨.refl _ _, List.Subset.refl _, List.Subset.refl _, fun _ _ _ => Iff.rfl⟩

theorem Later.trans {middle t : Graph} (first : u.Later av g avail' middle)
    (second : u.Later avail' middle avail'' t) : u.Later av g avail'' t :=
  ⟨first.grows.trans second.grows, List.Subset.trans first.layout second.layout, List.Subset.trans first.first second.first,
    fun b v into => (second.agree b v (Nat.lt_of_lt_of_le into first.grows.size)).trans
      (first.agree b v into)⟩

theorem Leads.later {t : Graph} (leads : u.Leads av g v low high)
    (skel : u.base.Skeleton g u.func u.entry) (skeleton' : u.base.Skeleton t u.func u.entry)
    (later : u.Later av g avail' t) (bound : high ≤ g.values.size) : u.Leads avail' t v low high := by
  refine leads.mono ?_ (fun b notEntry => (later.grows.code notEntry).sublist) later.first ?_
  · intro b mem i isIn pre
    exact skel.mem_code skeleton' later.grows mem isIn (Nat.lt_of_lt_of_le pre bound)
  · intro b mem known
    exact (later.agree b v (lt_of_isBlock ((skel.laid.blocks b).1 mem).2)).2 known

private theorem leads_nothing (v : ValueId) (bound : Nat) : u.Leads av g v bound bound :=
  fun _ _ _ _ _ early late => absurd late (Nat.not_lt_of_le early)

theorem Onward.refl (sound : u.Sound av st m here) : u.Onward st av m here av m here :=
  ⟨.refl _ _ _, rfl, sound.skeleton, sound, fun _ _ known => known, fun v _ _ => leads_nothing v _⟩

theorem Onward.trans (first : u.Onward st av m here avail' middle mid)
    (second : u.Onward st avail' middle mid avail'' t there) :
    u.Onward st av m here avail'' t there := by
  refine ⟨first.toLater.trans second.toLater, second.symbols.trans first.symbols, first.skeleton, second.sound, ?_, ?_⟩
  · intro v res known
    exact second.carried v (first.grows.result res) (first.carried v res known)
  · intro v res known
    have before := (first.leads v res known).later second.skeleton second.sound.skeleton second.toLater
      (Nat.le_refl _)
    exact before.append (second.leads v (first.grows.result res) (first.carried v res known))

theorem Onward.held (onward : u.Onward st av m here avail' t there)
    (held : u.Held av m.graph here v) : u.Held avail' t.graph there v := by
  rcases held with shared | ⟨above, res, known, recent⟩
  · exact .inl (onward.grows.shared shared)
  · have before := recent.later onward.skeleton onward.sound.skeleton onward.toLater (Nat.le_refl _)
    have near : v ∈ m.graph.code here ∨ av here v → u.AtHand avail' t.graph there v ∧
        u.Leads avail' t.graph v (v.index + 1) t.graph.values.size := by
      intro known
      exact ⟨(onward.carried v res known).imp_right .inl, before.append (onward.leads v res known)⟩
    refine .inr ⟨above, onward.grows.result res, ?_⟩
    rcases known with mem | known | ⟨_, first⟩
    · exact near (.inl mem)
    · exact near (.inr known)
    · refine ⟨?_, fun _ _ _ _ _ _ _ => .inr (.inr (onward.first first))⟩
      by_cases atEntry : there = u.entry
      · exact .inl (atEntry ▸ onward.first first)
      · exact .inr (.inr ⟨atEntry, onward.first first⟩)

theorem Sound.within (sound : u.Sound av st m here)
    (made : u.Building m.symbols st t here) (eq : SameNames m t)
    (grows : m.graph.Grows u.entry t.graph) (layout : m.graph.layout u.func ⊆ t.graph.layout u.func)
    (cs : ∀ b, (m.graph.code b).Sublist (t.graph.code b))
    (placed : ∀ b ∈ t.graph.layout u.func, b ≠ u.entry → ∀ i ∈ t.graph.code b,
      m.graph.values.size ≤ i.index → b = here ∧ ∀ v ∈ m.graph.code here, [v, i].Sublist (t.graph.code here))
    (traced : u.Traced av t.graph) : u.Onward st av m here av t here := by
  refine ⟨⟨grows, layout, (cs _).subset, fun _ _ _ => Iff.rfl⟩, eq.symbols, sound.skeleton,
    sound.grown made eq grows traced, fun _ _ known => known.imp_left fun isIn => (cs here).subset isIn, ?_⟩
  intro v _ known b mem notEntry i isIn new _
  obtain ⟨rfl, behind⟩ := placed b mem notEntry i isIn new
  rcases known with early | known
  · exact .inl (behind v early)
  · exact .inr (.inl known)

end Onward

theorem Sound.contained (sound : u.Sound av st m here) (mem : b ∈ m.graph.layout u.func) :
    ∀ v ∈ m.graph.code b, v.index < m.graph.values.size := by
  intro v isIn
  obtain ⟨_, d, hit, _⟩ :=
    sound.skeleton.coded.listed b v ((sound.skeleton.laid.blocks b).1 mem).1 isIn
  exact lt_of_kind? hit

section Inserted
variable {i : ValueId} {op : Opcode} {ty : Ty} {operands : List ValueId} {attr : Attr}
  {point : InsertPoint} {d : Block}
variable {final : Graph}

private theorem fed_of_held (put : Inserted m t i op ty operands attr point d)
    (grows : m.graph.Grows u.entry t.graph) (atEnd : point.index = (m.graph.code point.block).length)
    (layout : t.graph.layout u.func = m.graph.layout u.func)
    (held : ∀ v ∈ operands, u.Held av m.graph point.block v) : u.Fed av t.graph point.block i := by
  have operand : ∀ slot, slot ∈ t.graph.operandsOf i → ∃ v ∈ operands, slot = some v := by
    intro slot has
    rw [put.operandsOf, if_pos rfl] at has
    obtain ⟨v, mem, rfl⟩ := mem_map.1 has
    exact ⟨v, mem, rfl⟩
  refine ⟨?_, ?_, ?_⟩
  · intro slot has
    obtain ⟨v, mem, rfl⟩ := operand slot has
    rcases held v mem with shared | ⟨above, ⟨d, hit, inner⟩, _⟩
    · exact .shared (grows.shared shared)
    · exact .result (grows.inst hit) (by rw [Graph.isTerminator, opcode?_eq (grows.inst hit)]; exact inner)
  · intro v d used hit
    obtain ⟨_, mem, eq⟩ := operand _ used
    cases eq
    rcases held v mem with shared | ⟨above, _, early | known | ⟨other, first⟩, _⟩
    · exact absurd hit (grows.shared shared).not_inst
    · refine ⟨above, .inl ?_⟩
      rw [put.code_end atEnd]
      exact (singleton_sublist.2 early).append (List.Sublist.refl [i])
    · exact ⟨above, .inr (.inl known)⟩
    · exact ⟨above, .inr (.inr ⟨other, (put.code_sublist _).subset first⟩)⟩
  · intro v d used hit
    obtain ⟨_, mem, eq⟩ := operand _ used
    cases eq
    rcases held v mem with shared | ⟨_, _, _, recent⟩
    · exact absurd hit (grows.shared shared).not_inst
    · rw [put.fresh]
      exact recent.mono (put.mem_old layout) (fun b _ => put.code_sublist b) (put.code_sublist _).subset
        fun _ _ known => known

theorem Traced.put {t : Graph} (traced : u.Traced av g)
    (skel : u.base.Skeleton g u.func u.entry) (grows : g.Grows u.entry t)
    (layout : t.layout u.func = g.layout u.func) (cs : ∀ b, (g.code b).Sublist (t.code b))
    (exits : ∀ b ∈ g.layout u.func, t.exits b = g.exits b)
    (operands : ∀ b ∈ g.layout u.func, t.operandsOf b = g.operandsOf b)
    (fed : ∀ b ∈ g.layout u.func, ∀ i ∈ t.code b,
      i ∈ g.code b ∨ g.values.size ≤ i.index ∧ u.Fed av t b i)
    (sorted : ∀ b ∈ g.layout u.func, t.Sorted b) : u.Traced av t := by
  refine traced.grown skel grows (by rw [layout]; exact List.Subset.refl _) cs ?_ ?_
    (traced.recorded.congr (by rw [layout]) exits operands) (layout ▸ sorted)
  · rw [layout]
    intro b mem next goes
    exact .inl ⟨mem, exits b mem ▸ goes⟩
  · rw [layout]
    intro b mem i isIn
    exact (fed b mem i isIn).imp_left fun old => ⟨mem, old⟩

section
variable (sound : u.Sound av st m here)
include sound

private theorem Sound.placed_end (put : Inserted m t i op ty operands attr point d)
    (cs : ∀ b, final.code b = t.graph.code b)
    (layout : final.layout u.func = m.graph.layout u.func) :
    ∀ b ∈ final.layout u.func, b ≠ u.entry → ∀ v ∈ final.code b, m.graph.values.size ≤ v.index →
      b = here ∧ ∀ early ∈ m.graph.code here, [early, v].Sublist (final.code here) := by
  obtain rfl := sound.point_eq put
  intro b mem _ v isIn new
  rw [cs] at isIn
  rcases (put.mem_code b v).1 isIn with ⟨rfl, rfl⟩ | old
  · refine ⟨rfl, fun early isIn => ?_⟩
    rw [cs, put.code_end rfl]
    exact (singleton_sublist.2 isIn).append (List.Sublist.refl [v])
  · exact absurd (sound.contained (layout ▸ mem) v old) (Nat.not_lt_of_le new)

private theorem Sound.old_of_same (cs : ∀ b, final.code b = m.graph.code b)
    (layout : ∀ b ∈ final.layout u.func, final.code b ≠ [] → b ∈ m.graph.layout u.func)
    (mem : b ∈ final.layout u.func) (isIn : v ∈ final.code b) :
    ¬ m.graph.values.size ≤ v.index := by
  have old := layout b mem (ne_nil_of_mem isIn)
  rw [cs] at isIn
  exact Nat.not_le_of_lt (sound.contained old v isIn)

private theorem Sound.insertedAt (put : Inserted m t i op ty operands attr point d)
    (exits : ∀ b ∈ m.graph.layout u.func, t.graph.exits b = m.graph.exits b)
    (held : ∀ v ∈ operands, u.Held av m.graph here v) : u.Traced av t.graph := by
  have layout := sound.layout_inserted put
  obtain rfl := sound.point_eq put
  have grows := put.grows u.entry rfl
  refine sound.toTraced.put sound.skeleton grows layout put.code_sublist exits ?_ ?_ ?_
  · intro b mem
    rw [put.operandsOf, if_neg (put.ne_of_lt (sound.toBuilding.lt_of_mem mem))]
  · intro b mem v isIn
    rcases (put.mem_code b v).1 isIn with ⟨rfl, rfl⟩ | old
    · exact .inr ⟨Nat.le_of_eq (by rw [put.fresh]), fed_of_held put grows rfl layout held⟩
    · exact .inl old
  · intro b mem
    exact put.sorted (sound.contained mem) (sound.sorted b mem) fun _ => .inl rfl

theorem Sound.inserted (put : Inserted m t i op ty operands attr point d) (inner : op.isTerminator = false)
    (notSlot : op ≠ .alloca) (held : ∀ v ∈ operands, u.Held av m.graph here v) :
    u.Onward st av m here av t here ∧ u.Held av t.graph here i := by
  obtain ⟨straight, _⟩ := sound.toBuilding.inserted put inner notSlot fun v isIn => (held v isIn).plain
  have grows := straight.advances.grows
  have traced := sound.insertedAt put (fun b mem =>
    grows.exits_eq (put.lastOf_inner inner b (sound.contained mem))) held
  have layout := sound.layout_inserted put
  obtain rfl := sound.point_eq put
  refine ⟨sound.within straight.building (sameNames_inserted put) grows
    (by rw [straight.layout]; exact List.Subset.refl _) put.code_sublist ?_ traced,
    .inr ⟨?_, ⟨_, put.kind?_self, inner⟩, .inl (by rw [put.code_end rfl]; simp), ?_⟩⟩
  · exact sound.placed_end put (fun _ => rfl) layout
  · rw [put.fresh]
    exact sound.skeleton.framed.size
  · rw [put.size, put.fresh]
    exact leads_nothing _ _

theorem Sound.returned (put : Inserted m t i .ret ty operands attr point d)
    (held : ∀ v ∈ operands, u.Held av m.graph here v) : u.Traced av t.graph := by
  refine sound.insertedAt put ?_ held
  obtain rfl := sound.point_eq put
  intro b mem
  by_cases isHere : b = here
  · have last : t.graph.lastOf here = some i := by
      rw [Graph.lastOf, put.code_end rfl, getLast?_concat, Option.filter_some, isTerminator_of_opcode? put.opcode?_self]
      rfl
    rw [isHere, Graph.exits, last, Graph.exits, put.opened rfl]
    exact put.targetsOf_self
  · refine (put.grows u.entry rfl).exits_eq (lastOf_congr ?_ fun v isIn => ?_)
    · rw [put.code, if_neg isHere]
    · exact put.opcode? (put.ne_of_lt (sound.contained mem v isIn))

/-- Ending a block keeps uses after what they use, if the targets need no more than is at hand. -/
theorem Sound.ended {dests : List ValueId}
    (done : Closed m t i op operands dests point d) (last : op.isTerminator)
    (notReturn : op ≠ .ret) (leads : targetOperands op operands = dests)
    (into : ∀ dest ∈ dests, dest ∈ m.graph.layout u.func)
    (held : ∀ v ∈ operands, v ∈ dests ∨ u.Held av m.graph here v)
    (cond : op = .br → ∀ v ∈ operands.head?, u.Held av m.graph here v)
    (passes : ∀ dest ∈ dests, ∀ v, av dest v → av here v ∨ v ∈ m.graph.code here) :
    u.Onward st av m here av t here := by
  have ended := sound.toBuilding.ended done last notReturn leads into fun isBranch v first =>
    (cond isBranch v first).plain
  obtain ⟨middle, put, linked, eq⟩ := done.inserted
  obtain rfl := sound.point_eq put
  have grows := ended.advances.grows
  have cs : ∀ b, t.graph.code b = middle.graph.code b := by
    intro b
    rw [Graph.code, linked.kind?, Graph.code]
  have opcode : ∀ v, t.graph.opcode? v = middle.graph.opcode? v := by
    intro v
    rw [Graph.opcode?, linked.kind?, Graph.opcode?]
  have isTarget : ∀ v ∈ dests, m.graph.isBlock v :=
    fun v goes => ((sound.skeleton.laid.blocks v).1 (into v goes)).2
  have fresh : i ∉ dests := by
    intro goes
    exact put.ne_of_lt (lt_of_isBlock (isTarget i goes)) rfl
  have instOperands : t.graph.operandsOf i = operands.map some := by
    rw [linked.operandsOf, append_edges fresh, put.operandsOf, if_pos rfl]
  have layout : t.graph.layout u.func = m.graph.layout u.func := by
    rw [← sound.layout_inserted put, Graph.layout, linked.operandsOf, append_edges, Graph.layout]
    exact fun goes => sound.skeleton.ne_func (into _ goes) rfl
  have others : ∀ b ∈ m.graph.layout u.func, b ≠ here → t.graph.exits b = m.graph.exits b := by
    intro b mem notHere
    refine grows.exits_eq (lastOf_congr ?_ ?_)
    · rw [cs, put.code, if_neg notHere]
    · intro v isIn
      rw [opcode, put.opcode? (put.ne_of_lt (sound.contained mem v isIn))]
  have exits := ended.exits
  have sublist : ∀ b, (m.graph.code b).Sublist (t.graph.code b) := fun b => by
    rw [cs]
    exact put.code_sublist b
  refine sound.within ended.building ?_ grows (by rw [layout]; exact List.Subset.refl _) sublist
    (sound.placed_end put cs layout)
    (sound.toTraced.grown sound.skeleton grows (by rw [layout]; exact List.Subset.refl _) sublist ?_ ?_ ?_ ?_)
  · rw [eq, put.module]
    exact ⟨rfl, rfl, rfl, rfl⟩
  · rw [layout]
    intro b mem next goes
    by_cases isHere : b = here
    · rw [isHere, exits] at goes
      rw [isHere]
      exact .inr fun v known => (passes next goes v known).imp_right fun isIn => (sublist here).subset isIn
    · exact .inl ⟨mem, others b mem isHere ▸ goes⟩
  · rw [layout]
    intro b mem v isIn
    rw [cs] at isIn
    rcases (put.mem_code b v).1 isIn with ⟨rfl, rfl⟩ | old
    · refine .inr ⟨Nat.le_of_eq (by rw [put.fresh]), ?_, ?_, ?_⟩
      · intro slot has
        rw [instOperands] at has
        obtain ⟨w, used, rfl⟩ := mem_map.1 has
        rcases held w used with goes | held
        · refine .target ?_ (by rw [layout]; exact into w goes)
          rw [Graph.isTerminator, opcode, put.opcode?_self]
          exact last
        · rcases held with shared | ⟨_, ⟨d, hit, inner⟩, _⟩
          · exact .shared (grows.shared shared)
          · exact .result (grows.inst hit)
              (by rw [grows.isTerminator_eq hit, Graph.isTerminator, opcode?_eq hit]; exact inner)
      · intro w d used hit
        rw [instOperands] at used
        obtain ⟨_, used, isW⟩ := mem_map.1 used
        cases isW
        rcases held w used with goes | shared | ⟨above, _, known, _⟩
        · obtain ⟨b, isBlock⟩ := block_of_isBlock (isTarget w goes)
          obtain ⟨insts, now, _⟩ := grows.block w b isBlock
          cases now.symm.trans hit
        · exact absurd hit (grows.shared shared).not_inst
        · refine ⟨above, known.imp ?_ (Or.imp_right fun first => ⟨first.1, (sublist _).subset first.2⟩)⟩
          intro early
          rw [cs, put.code_end rfl]
          exact (singleton_sublist.2 early).append (List.Sublist.refl [v])
      · intro w d used hit
        rw [instOperands] at used
        obtain ⟨_, used, isW⟩ := mem_map.1 used
        cases isW
        rcases held w used with goes | shared | ⟨_, _, _, recent⟩
        · obtain ⟨b, isBlock⟩ := block_of_isBlock (isTarget w goes)
          obtain ⟨insts, now, _⟩ := grows.block w b isBlock
          cases now.symm.trans hit
        · exact absurd hit (grows.shared shared).not_inst
        · rw [put.fresh]
          refine recent.mono ?_ (fun b _ => sublist b) (sublist _).subset fun _ _ known => known
          intro b mem v isIn
          rw [cs] at isIn
          exact put.mem_old (sound.layout_inserted put) b (sound.layout_inserted put ▸ layout ▸ mem) v isIn
    · exact .inl ⟨mem, old⟩
  · refine sound.recorded.closed sound.skeleton.laid.nodup sound.member layout others ?_ exits ?_
    · rw [Graph.exits, put.opened rfl]
    · intro b mem
      rw [linked.operandsOf, put.operandsOf, if_neg (put.ne_of_lt (sound.toBuilding.lt_of_mem mem))]
  · rw [layout]
    intro b mem
    refine Graph.Sorted.congr ?_ (cs b) fun v _ => opcode v
    exact put.sorted (sound.contained mem) (sound.sorted b mem) fun _ => .inl rfl

end

end Inserted

section
variable (sound : u.Sound av st m here)
include sound

theorem Sound.jump (into : dest ∈ m.graph.layout u.func)
    (passes : ∀ v, av dest v → av here v ∨ v ∈ m.graph.code here)
    (done : Builder.jump dest m = .ok (i, t)) : u.Onward st av m here av t here := by
  obtain ⟨_, point, d, closed⟩ := jump_ok sound.skeleton.consistent done
  exact sound.ended closed rfl (by decide) rfl (by simpa using into) (by simp) (fun isBranch => by cases isBranch)
    (by simpa using passes)

theorem Sound.branch {cond thenBlock elseBlock : ValueId}
    (held : u.Held av m.graph here cond) (thenInside : thenBlock ∈ m.graph.layout u.func)
    (elseInside : elseBlock ∈ m.graph.layout u.func)
    (thenPasses : ∀ v, av thenBlock v → av here v ∨ v ∈ m.graph.code here)
    (elsePasses : ∀ v, av elseBlock v → av here v ∨ v ∈ m.graph.code here)
    (done : Builder.branch cond thenBlock elseBlock m = .ok (i, t)) :
    u.Onward st av m here av t here := by
  obtain ⟨_, point, d, closed⟩ := branch_ok sound.skeleton.consistent done
  refine sound.ended closed rfl (by decide) rfl ?_ ?_ ?_ ?_
  · simp [thenInside, elseInside]
  · intro v used
    rcases mem_cons.1 used with rfl | goes
    · exact .inr held
    · exact .inl goes
  · intro _ v first
    cases first
    exact held
  · intro dest goes
    rcases mem_cons.1 goes with rfl | goes
    · exact thenPasses
    · exact mem_singleton.1 goes ▸ elsePasses

theorem Sound.added {k : Kind} {limit : Option Nat}
    (done : addValue k ty limit m = .ok (v, t)) (free : k.values = []) :
    u.Onward st av m here av t here ∧ t.graph.kind? v = some k := by
  obtain ⟨straight, _⟩ := sound.toBuilding.added done free
  have notBlock := Kind.isBlock_of_values free
  obtain ⟨rfl, rfl⟩ := addValue_ok.1 done
  have added := sound.skeleton.consistent.add_added k ty limit
  have empty : k.insts = [] := by
    cases k with
    | block d => cases notBlock
    | _ => rfl
  have cs := added.code empty
  refine ⟨?_, by rw [added.kind?, if_pos rfl]⟩
  have grows := straight.advances.grows
  have opcode : ∀ b ∈ m.graph.layout u.func, ∀ v ∈ m.graph.code b,
      (m.graph.add k ty limit).2.opcode? v = m.graph.opcode? v := by
    intro b mem v isIn
    obtain ⟨_, d, hit, _⟩ :=
      sound.skeleton.coded.listed b v ((sound.skeleton.laid.blocks b).1 mem).1 isIn
    rw [opcode?_eq hit, opcode?_eq (added.kind?_of_some hit)]
  refine sound.within straight.building ⟨rfl, rfl, rfl, rfl⟩ grows
    (by rw [straight.layout]; exact List.Subset.refl _) (fun b => by rw [cs])
    (fun b mem _ v isIn new =>
      absurd new (sound.old_of_same cs (fun b mem _ => straight.layout ▸ mem) mem isIn))
    (sound.toTraced.put sound.skeleton grows straight.layout (fun b => by rw [cs]) ?_
      (fun b _ => added.operandsOf b) ?_ ?_)
  · intro b mem
    exact grows.exits_eq (lastOf_congr (cs b) (opcode b mem))
  · intro b _ i isIn
    rw [cs] at isIn
    exact .inl isIn
  · intro b mem
    exact (sound.sorted b mem).congr (cs b) (opcode b mem)

theorem Sound.alloca {slot : ValueId} (done : Builder.alloca ty n m = .ok (slot, t)) :
    u.Onward st av m here av t here ∧ u.Known t.graph slot := by
  obtain ⟨straight, _⟩ := sound.toBuilding.alloca done
  obtain ⟨state', d, current, allocated⟩ := alloca_ok sound.skeleton.consistent done
  obtain rfl : st = state' := Option.some.inj (sound.current.symm.trans current)
  rw [sound.entry] at allocated
  have put := allocated.inserted
  have above : u.base.values.size ≤ slot.index := by
    rw [put.fresh]
    exact sound.skeleton.framed.size
  have eq : SameNames m t :=
    have eq := sameNames_inserted put
    ⟨eq.symbols, eq.functions, eq.globals, eq.current⟩
  refine ⟨sound.within straight.building eq allocated.grows (by rw [straight.layout]; exact List.Subset.refl _)
    put.code_sublist ?_ (sound.toTraced.put sound.skeleton allocated.grows straight.layout put.code_sublist ?_ ?_ ?_ ?_),
    .inr ⟨above, put.opcode?_self⟩⟩
  · intro b mem notEntry v isIn new
    rcases (put.mem_code b v).1 isIn with ⟨isEntry, _⟩ | old
    · exact absurd isEntry notEntry
    · exact absurd (sound.contained (straight.layout ▸ mem) v old) (Nat.not_lt_of_le new)
  · intro b mem
    exact allocated.grows.exits_eq (put.lastOf_inner rfl b (sound.contained mem))
  · intro b mem
    have apart : b ≠ slot := put.ne_of_lt (sound.toBuilding.lt_of_mem mem)
    exact (put.operandsOf b).trans (if_neg apart)
  · intro b mem v isIn
    rcases (put.mem_code b v).1 isIn with ⟨_, isSlot⟩ | old
    · have none : t.graph.operandsOf v = [] := (put.operandsOf v).trans (if_pos isSlot)
      refine .inr ⟨Nat.le_of_eq (by rw [isSlot, put.fresh]), ?_, ?_, ?_⟩
      · rw [none]
        simp
      · rw [none]
        simp
      · rw [none]
        simp
    · exact .inl old
  · intro b mem
    exact put.sorted (sound.contained mem) (sound.sorted b mem) fun _ => .inr rfl

theorem Sound.moveBlockToEnd {res : Unit} (mem : b ∈ m.graph.layout u.func) (notEntry : b ≠ u.entry)
    (done : Builder.moveBlockToEnd u.func b m = .ok (res, t)) :
    u.Onward st av m here av t here := by
  obtain ⟨made, grows, kinds, layout⟩ := sound.toBuilding.moveBlockToEnd mem notEntry done
  obtain ⟨rewired, eq⟩ := Builder.moveBlockToEnd_ok sound.skeleton.consistent done
  have perm : (t.graph.layout u.func).Perm (m.graph.layout u.func) := by
    rw [layout]
    exact (perm_append_singleton _ _).trans (perm_cons_erase mem).symm
  have cs : ∀ b, t.graph.code b = m.graph.code b := fun b => by
    rw [Graph.code, kinds, Graph.code]
  have exits : ∀ b, t.graph.exits b = m.graph.exits b := fun b =>
    grows.exits_eq (lastOf_congr (cs b) fun v _ => by rw [Graph.opcode?, kinds, Graph.opcode?])
  refine sound.within made (by rw [eq]; exact ⟨rfl, rfl, rfl, rfl⟩) grows perm.symm.subset
    (fun b => by rw [cs]) (fun b mem _ v isIn new =>
      absurd new (sound.old_of_same cs (fun b into _ => perm.mem_iff.1 into) mem isIn))
    (sound.toTraced.grown sound.skeleton grows perm.symm.subset (fun b => by rw [cs]) ?_ ?_ ?_ ?_)
  · intro b into next goes
    exact .inl ⟨perm.mem_iff.1 into, exits b ▸ goes⟩
  · intro b into i isIn
    exact .inl ⟨perm.mem_iff.1 into, cs b ▸ isIn⟩
  · refine sound.recorded.congr perm (fun b _ => exits b) fun b into => ?_
    rw [rewired.operandsOf, if_neg (sound.skeleton.ne_func into)]
  · intro b into
    exact (sound.sorted b (perm.mem_iff.1 into)).congr (cs b) fun v _ => by
      rw [Graph.opcode?, kinds, Graph.opcode?]

end

def covering (avail : ValueId → ValueId → Prop) (block : ValueId) (wanted : ValueId → Prop)
    (b v : ValueId) : Prop :=
  if b = block then wanted v else avail b v

private theorem Traced.recover (traced : u.Traced av g) (skel : u.base.Skeleton g u.func u.entry)
    (agree : ∀ b ∈ g.layout u.func, ∀ v, avail' b v ↔ av b v)
    (inner : ∀ b v, avail' b v → g.Result v) : u.Traced avail' g where
  bare := fun v known => traced.bare v ((agree _ skel.entry_mem v).1 known)
  inner := inner
  edges := by
    intro b mem next goes v known
    have asked := (agree next (skel.exits_mem mem goes) v).1 known
    exact (traced.edges b mem next goes v asked).imp_left (agree b mem v).2
  fed := by
    intro b mem i isIn
    have fed := traced.fed b mem i isIn
    refine ⟨fed.operands, fun v d used hit => ?_, fun v d used hit => ?_⟩
    · obtain ⟨above, way⟩ := fed.results v d used hit
      exact ⟨above, way.imp_right (Or.imp_left (agree b mem v).2)⟩
    · exact (fed.leads v d used hit).mono (fun _ mem _ isIn _ => ⟨mem, isIn⟩)
        (fun _ _ => List.Sublist.refl _) (List.Subset.refl _) fun b mem => (agree b mem v).2
  recorded := traced.recorded
  sorted := traced.sorted

section
variable (sound : u.Sound av st m here)
include sound

/-- A new block has at hand what all blocks that lead to it have. -/
theorem Sound.createBlock {wanted : ValueId → Prop}
    (inner : ∀ v, wanted v → m.graph.Result v) (done : Builder.createBlock u.func n m = .ok (b, t)) :
    u.Onward st av m here (covering av b wanted) t here ∧
      b ∈ t.graph.layout u.func ∧ m.graph.values.size ≤ b.index ∧ b ≠ u.entry ∧
      t.graph.code here = m.graph.code here := by
  obtain ⟨made, advances, added⟩ := sound.toBuilding.createBlock done
  have grows := advances.grows
  have layout := Graph.Skeleton.layout_blockAdded added
  have cs := added.code
  have old : ∀ a ∈ m.graph.layout u.func, a ≠ b := fun a mem =>
    added.ne_of_lt (sound.toBuilding.lt_of_mem mem)
  have agree : ∀ a v, a ≠ b → (covering av b wanted a v ↔ av a v) := by
    intro a v other
    rw [covering, if_neg other]
  have entryOld := old _ sound.skeleton.entry_mem
  have opcode : ∀ a ∈ m.graph.layout u.func, ∀ v ∈ m.graph.code a, t.graph.opcode? v = m.graph.opcode? v := by
    intro a mem v isIn
    obtain ⟨_, d, hit, _⟩ :=
      sound.skeleton.coded.listed a v ((sound.skeleton.laid.blocks a).1 mem).1 isIn
    rw [opcode?_eq hit, opcode?_eq (added.kind?_of_some hit)]
  have exits : ∀ a ∈ m.graph.layout u.func, t.graph.exits a = m.graph.exits a :=
    fun a mem => grows.exits_eq (lastOf_congr (cs a) (opcode a mem))
  have blank : t.graph.exits b = [] := by
    rw [Graph.exits, Graph.lastOf, added.code_self]
    rfl
  have unknown : ∀ a ∈ m.graph.layout u.func, b ∉ m.graph.exits a := by
    intro a mem goes
    exact old b (sound.skeleton.exits_mem mem goes) rfl
  have eq : SameNames m t := by
    obtain ⟨_, current, isAfter, kept, _⟩ := createBlock_ok sound.skeleton.consistent done
    rw [isAfter, kept st sound.current sound.function]
    exact ⟨rfl, rfl, rfl, sound.current.symm⟩
  have was : ∀ a ∈ t.graph.layout u.func, t.graph.code a ≠ [] → a ∈ m.graph.layout u.func := by
    intro a mem filled
    rw [layout, mem_append, mem_singleton] at mem
    rcases mem with old | rfl
    · exact old
    · exact absurd added.code_self filled
  refine ⟨⟨⟨grows, advances.layout.subset, by rw [cs]; exact List.Subset.refl _, ?_⟩, eq.symbols, sound.skeleton, ?_, ?_,
    fun v _ _ b mem _ i isIn new _ => absurd new (sound.old_of_same cs was mem isIn)⟩,
    added.mem_layout, Nat.le_of_eq (by rw [added.fresh]),
    entryOld.symm, cs here⟩
  · intro a v into
    exact agree a v (added.ne_of_lt into)
  · have recovered : u.Traced (covering av b wanted) m.graph := by
      refine sound.toTraced.recover sound.skeleton (fun a mem v => agree a v (old a mem)) ?_
      intro a v known
      unfold covering at known
      split at known
      · exact inner v known
      · exact sound.inner a v known
    refine sound.grown made eq grows (recovered.grown sound.skeleton grows advances.layout.subset
      (fun a => by rw [cs]) ?_ ?_ (sound.recorded.added layout exits ?_ blank ?_ unknown) ?_)
    · intro a mem next goes
      rw [layout, mem_append, mem_singleton] at mem
      rcases mem with was | rfl
      · exact .inl ⟨was, exits a was ▸ goes⟩
      · rw [blank] at goes
        cases goes
    · intro a mem i isIn
      rw [cs] at isIn
      rw [layout, mem_append, mem_singleton] at mem
      rcases mem with was | rfl
      · exact .inl ⟨was, isIn⟩
      · rw [← cs, added.code_self] at isIn
        cases isIn
    · intro a mem
      rw [added.operandsOf, if_neg (sound.skeleton.ne_func mem)]
    · rw [added.operandsOf, if_neg ?_, added.fresh]
      · exact operandsOf_nil_of_ge (Nat.le_refl _)
      · obtain ⟨f, isFunction⟩ := sound.skeleton.laid.function
        exact (added.ne_of_lt (lt_of_kind? isFunction)).symm
    · intro a mem
      rw [layout, mem_append, mem_singleton] at mem
      rcases mem with was | rfl
      · exact (sound.sorted a was).congr (cs a) (opcode a was)
      · unfold Graph.Sorted
        rw [added.code_self]
        exact List.Pairwise.nil
  · intro v _ known
    rw [cs]
    exact known.imp_right (agree here v (old here sound.member)).2

theorem Sound.renamed {state' : FunctionState}
    (made : u.Building t.symbols state' t there) (graph : t.graph = m.graph)
    (known : t.symbols.All (u.Known m.graph)) (functions : t.functions = m.functions)
    (result : ∀ slot ∈ state'.returnSlot, u.Known m.graph slot) : u.Sound av state' t there where
  toBuilding := made
  toTraced := graph ▸ sound.toTraced
  known := graph ▸ known
  callees := by rw [functions, graph]; exact sound.callees
  result := graph ▸ result

theorem Sound.elsewhere (contexts : List Location) (report : Report) :
    u.Sound av st { m with contexts, report } here :=
  sound.renamed (sound.toBuilding.elsewhere contexts report) rfl sound.known rfl sound.result

theorem Sound.entered {res : Unit}
    (into : dest ∈ m.graph.layout u.func) (done : Builder.setInsertPoint dest m = .ok (res, t)) :
    u.Sound av st t dest ∧ t.graph = m.graph := by
  obtain ⟨made, graph⟩ := sound.toBuilding.entered into done
  obtain ⟨_, rfl⟩ := setInsertPoint_ok done
  exact ⟨sound.renamed made graph sound.known rfl sound.result, graph⟩

theorem Sound.constInt {number : Int64} (done : Builder.constInt number ty m = .ok (v, t)) :
    u.Onward st av m here av t here ∧ u.Held av t.graph here v :=
  (sound.added done rfl).imp_right fun hit => .inl (.int hit)

end

theorem sound_upkeep (site : Site) (av : ValueId → ValueId → Prop) (st : FunctionState) (here : ValueId) :
    Upkeep (site.Sound av st · here) (fun m t => site.Onward st av m here av t here)
      (fun m => site.Held av m.graph here) where
  refl := .refl
  trans := .trans
  holds onward := onward.sound
  stays onward held := onward.held held
  insert := by
    intro m t op ty operands attr v sound inner notSlot held done
    obtain ⟨point, d, put⟩ := insertInst_ok sound.skeleton.consistent done
    exact sound.inserted put inner notSlot held
  constant sound done := sound.constInt done

end Site
end Midend
