import Midend.Proofs.Flow.Shape
import Midend.Proofs.Lower.Safe

/-! Lowering of expressions and statements builds code of the function that is being lowered.
Wherever control leaves a block the block ends, and what follows goes to a block of its own, so
that at the end of a statement only the current block and those that waited before are without a
terminator. From where a statement begins control gets to where it ends, unless it leaves the
statement, and edges to blocks that were there before lead only to the exit or out of a loop. -/
namespace Midend
open List Graph

namespace Graph
variable {g t base : Graph} {entry func a b c : ValueId}
variable {target : ValueId}

private theorem exits_of_open (ho : g.lastOf b = none) : g.exits b = [] := by
  rw [exits, ho]

theorem lastOf_of_blank (blank : g.code b = []) : g.lastOf b = none := by
  rw [lastOf, blank]
  rfl

theorem Reaches.trans (first : g.Reaches a b) (second : g.Reaches b c) : g.Reaches a c := by
  induction second with
  | start => exact first
  | next _ goes ih => exact .next ih goes

theorem Skeleton.reaches_mem (skeleton : base.Skeleton g func entry) (mem : a ∈ g.layout func)
    (reaches : g.Reaches a b) : b ∈ g.layout func := by
  induction reaches with
  | start => exact mem
  | next _ goes ih => exact skeleton.exits_mem ih goes

private theorem Skeleton.mem_of_exits (skeleton : base.Skeleton g func entry) (above : base.values.size ≤ b.index)
    (goes : target ∈ g.exits b) : b ∈ g.layout func := by
  cases ends : g.lastOf b with
  | none => rw [exits_of_open ends] at goes; cases goes
  | some last =>
    obtain ⟨d, hb⟩ := block_of_mem_code (lastOf_mem ends).1
    exact (skeleton.laid.blocks b).2 ⟨above, by rw [Graph.isBlock, hb]; rfl⟩

theorem Grows.exits_mono (grows : g.Grows entry t) (coded : base.Coded t entry)
    (above : base.values.size ≤ b.index) (goes : target ∈ g.exits b) :
    target ∈ t.exits b := by
  cases ends : g.lastOf b with
  | none => rw [exits_of_open ends] at goes; cases goes
  | some last => rwa [grows.exits_eq ((grows.lastOf coded above ends).trans ends.symm)]

theorem Grows.inst_of (grows : g.Grows entry t) {v : ValueId} {d : Inst} (inside : v.index < g.values.size)
    (found : t.kind? v = some (.inst d)) : g.kind? v = some (.inst d) := by
  obtain ⟨kind, hit⟩ := exists_kind? inside
  cases hb : kind.isBlock with
  | false => rw [hit, ← grows.kind? v kind hit hb, found]
  | true =>
    have same := grows.isBlock inside
    rw [Graph.isBlock, Graph.isBlock, found, hit] at same
    cases hb.symm.trans same.symm

theorem Grows.reaches (grows : g.Grows entry t) (skeleton : base.Skeleton g func entry)
    (skeleton' : base.Skeleton t func entry) (mem : a ∈ g.layout func) (reaches : g.Reaches a b) :
    t.Reaches a b := by
  induction reaches with
  | start => exact .start
  | next pre goes ih =>
    have above := ((skeleton.laid.blocks _).1 (skeleton.reaches_mem mem pre)).1
    exact .next ih (grows.exits_mono skeleton'.coded above goes)

def Skips (g : Graph) (entry : ValueId) (m : Stretch) : Prop :=
  ∀ inst block, m.Has inst → inst ∈ g.code block → g.opcode? inst ≠ some .alloca → ¬ g.Reaches entry block

end Graph

namespace Site
variable {site : Site} {scs scopes' : ScopeTable ValueId} {st : FunctionState}
  {s t : Lowering} {here there : ValueId}
variable {m : Module}

structure Filling (site : Site) (scopes : ScopeTable ValueId) (state : FunctionState)
    (s : Lowering) (here : ValueId) : Prop where
  building : site.Building scopes state s.module here
  loops : ∀ targets ∈ s.loops, targets.continueBlock ∈ s.module.graph.layout site.func ∧
    targets.breakBlock ∈ s.module.graph.layout site.func
  nested : 0 < scopes.inner.length
  leaves : state.exit.isSome

theorem Filling.reached (filling : site.Filling scs st s here) {pending : List ValueId}
    (path : site.Reached scopes' st s here t there pending)
    (eq : scopes'.inner.length = scs.inner.length) : site.Filling scopes' st t there where
  building := path.building
  loops := by
    intro dests mem
    rw [path.loops] at mem
    have inside := filling.loops dests mem
    exact ⟨path.advances.layout.subset inside.1, path.advances.layout.subset inside.2⟩
  nested := eq ▸ filling.nested
  leaves := filling.leaves

theorem Building.declare (made : site.Building scs st m here) (nested : 0 < scs.inner.length)
    {v : ValueId} (plain : m.graph.Plain v) (name : String) :
    site.Building (scs.insert name v) st { m with symbols := m.symbols.insert name v } here ∧
      (scs.insert name v).inner.length = scs.inner.length := by
  obtain ⟨scope, tl, inner⟩ := exists_cons_of_length_pos nested
  have length : (scs.insert name v).inner.length = scs.inner.length := by
    simp [ScopeTable.insert, inner]
  have ns := made.names
  have outermost : (m.symbols.insert name v).outermost = m.symbols.outermost := by
    rw [ns]
    simp [ScopeTable.insert, inner]
  refine ⟨⟨⟨made.skeleton, made.symbols.insert plain name, ?_,
    outermost.trans made.outermost, made.functions, made.globals, made.callable⟩,
    made.noReturn, ?_, made.current, made.function, made.entry, made.exit, made.returnSlot,
    made.point, made.member⟩, length⟩
  · show (m.symbols.insert name v).inner.length = _
    rw [ns]
  · show m.symbols.insert name v = _
    rw [ns]

theorem Building.push (made : site.Building scs st m here) :
    site.Building scs.push st { m with symbols := m.symbols.push } here := by
  have ns := made.names
  refine ⟨⟨made.skeleton, made.symbols.push, ?_, made.outermost,
    made.functions, made.globals, made.callable⟩,
    made.noReturn, ?_, made.current, made.function, made.entry, made.exit, made.returnSlot,
    made.point, made.member⟩
  · show m.symbols.push.inner.length = _
    rw [ns]
  · show m.symbols.push = _
    rw [ns]

theorem Intact.pop {depth : Nat} (intact : site.Intact (depth + 1) m) :
    site.Intact depth { m with symbols := m.symbols.pop } := by
  refine ⟨intact.skeleton, intact.symbols.pop, ?_, intact.outermost, intact.functions, intact.globals, intact.callable⟩
  show m.symbols.inner.tail.length = depth
  rw [length_tail, intact.depth, Nat.add_sub_cancel]

theorem Building.pop (made : site.Building scopes' st m here)
    (eq : scopes'.inner.length = scs.push.inner.length) :
    site.Building scopes'.pop st { m with symbols := m.symbols.pop } here ∧
      scopes'.pop.inner.length = scs.inner.length := by
  have ns := made.names
  have length : scopes'.pop.inner.length = scs.inner.length := by
    show scopes'.inner.tail.length = _
    rw [length_tail, eq]
    rfl
  have deeper : scopes'.inner.length = scs.inner.length + 1 := eq
  have intact : site.Intact (scs.inner.length + 1) m := deeper ▸ made.toIntact
  refine ⟨⟨length ▸ intact.pop, made.noReturn, ?_, made.current, made.function, made.entry, made.exit,
    made.returnSlot, made.point, made.member⟩, length⟩
  show m.symbols.pop = _
  rw [ns]

structure Front (site : Site) (state : FunctionState) (mode : Mode) where
  s : Lowering
  here : ValueId
  filling : site.Filling s.module.symbols state s here
  opened : s.module.graph.lastOf here = none
  sane : mode.safe → site.Sane state mode.defs s here

def aims (state : FunctionState) (s : Lowering) : List ValueId :=
  state.exit.toList ++ s.loops.flatMap fun targets => [targets.continueBlock, targets.breakBlock]

def Outward (state : FunctionState) (s : Lowering) (target : ValueId) : Prop :=
  s.module.graph.values.size ≤ target.index ∨ target ∈ aims state s

private theorem mem_aims_loop {dests : LoopTargets} {target : ValueId} :
    target ∈ aims st { s with loops := dests :: s.loops } ↔
      target = dests.continueBlock ∨ target = dests.breakBlock ∨ target ∈ aims st s := by
  simp only [aims, flatMap_cons, mem_append, mem_cons, not_mem_nil, or_false]
  tauto

theorem Filling.exact (filling : site.Filling scs st s here) : site.Filling s.module.symbols st s here := by
  rw [filling.building.names]
  exact filling

def Lost (site : Site) (g : Graph) (here : ValueId) : Prop :=
  g.values.size = here.index + 1 ∧ ∀ block ∈ g.layout site.func, block ≠ site.entry → here ∉ g.exits block

structure Sealed (site : Site) (g : Graph) (m : Stretch) : Prop where
  last : m.last ≤ g.values.size
  edges : ∀ block ∈ g.layout site.func, block ≠ site.entry → ∀ target ∈ g.exits block, m.Covers target → m.Covers block
  homes : ∀ inst data, m.first ≤ inst.index → inst.index < m.last → g.kind? inst = some (.inst data) →
    data.parent = site.entry ∨ m.Covers data.parent

/-- Once a function has begun, control does not come to what is in a stretch, slots apart. -/
theorem Sealed.skips {g t : Graph} {m : Stretch} {last : ValueId} (isSealed : site.Sealed t m)
    (skeleton : site.base.Skeleton g site.func site.entry) (skeleton' : site.base.Skeleton t site.func site.entry)
    (grows : g.Grows site.entry t) (ended : g.lastOf site.entry = some last) (began : g.values.size < m.first) :
    t.Skips site.entry m := by
  have above : ∀ block ∈ t.layout site.func, site.base.values.size ≤ block.index :=
    fun block mem => ((skeleton'.laid.blocks block).1 mem).1
  have old : ∀ block ∈ g.layout site.func, ¬ m.Covers block := by
    intro block mem covers
    have inside := lt_of_isBlock ((skeleton.laid.blocks block).1 mem).2
    have low := covers.1
    omega
  have outside : ∀ {block}, t.Reaches site.entry block → ¬ m.Covers block := by
    intro block path
    induction path with
    | start => exact old _ skeleton.entry_mem
    | @next a b pre goes ih =>
      by_cases isEntry : a = site.entry
      · rw [isEntry, grows.exits_eq ((grows.lastOf skeleton'.coded (above _ skeleton'.entry_mem) ended).trans ended.symm)]
          at goes
        exact old b (skeleton.exits_mem skeleton.entry_mem goes)
      · exact fun covers => ih (isSealed.edges a (skeleton'.reaches_mem skeleton'.entry_mem pre) isEntry b goes covers)
  intro i block has isIn notSlot path
  have inside := skeleton'.reaches_mem skeleton'.entry_mem path
  obtain ⟨_, d, found, rfl⟩ := skeleton'.coded.listed block i (above block inside) isIn
  rcases isSealed.homes i d has.1 has.2 found with isEntry | covers
  · -- The entry has ended before, and gets slots only.
    rw [isEntry] at isIn
    obtain ⟨isLast, terminates⟩ := Option.filter_eq_some_iff.1 ended
    obtain ⟨front, cs⟩ := getLast?_eq_some_iff.1 isLast
    obtain ⟨more, now, ls⟩ := grows.slots front last cs terminates
    have known : i ∉ g.code site.entry := by
      intro isIn
      obtain ⟨_, _, known, _⟩ := skeleton.coded.listed site.entry i (above _ skeleton'.entry_mem) isIn
      exact absurd (lt_of_kind? known) (Nat.not_lt_of_le (Nat.le_trans (Nat.le_of_lt began) has.1))
    rw [cs] at known
    rw [now] at isIn
    simp only [mem_append, not_or] at isIn known
    rcases isIn with (isIn | isIn) | isIn
    · exact known.1 isIn
    · exact notSlot (ls i isIn)
    · exact known.2 isIn
  · exact outside path covers

theorem Sealed.grown {g t : Graph} {m : Stretch} (isSealed : site.Sealed g m) (grows : g.Grows site.entry t)
    (edges : ∀ block ∈ t.layout site.func, block ≠ site.entry → ∀ target ∈ t.exits block, m.Covers target →
      block ∈ g.layout site.func ∧ target ∈ g.exits block) : site.Sealed t m where
  last := Nat.le_trans isSealed.last grows.size
  edges block mem notEntry target goes covers := by
    obtain ⟨inside, old⟩ := edges block mem notEntry target goes covers
    exact isSealed.edges block inside notEntry target old covers
  homes v d low high found :=
    isSealed.homes v d low high (grows.inst_of (Nat.lt_of_lt_of_le high isSealed.last) found)

namespace Front
variable {mode : Mode} {p q r : site.Front st mode} {pending later dests : List ValueId} {target b v : ValueId}
  {module : Module}
variable {broken : Lowering → Prop}

structure Over (p q : site.Front st mode) (pending : List ValueId) : Prop where
  reached : site.Reached q.s.module.symbols st p.s p.here q.s q.here pending
  depth : q.s.module.symbols.inner.length = p.s.module.symbols.inner.length
  route : q.s.module.graph.Reaches p.here q.here ∨
    ∃ target ∈ pending ++ aims st p.s, q.s.module.graph.Reaches p.here target
  edges : ∀ block ∈ q.s.module.graph.layout site.func, block ≠ site.entry →
    ∀ target ∈ q.s.module.graph.exits block, target ∈ p.s.module.graph.exits block ∨ Outward st p.s target

structure Along (p q : site.Front st mode) : Prop extends p.Over q [] where
  symbols : q.s.module.symbols = p.s.module.symbols
  reaches : q.s.module.graph.Reaches p.here q.here

structure Forked (p q : site.Front st mode) (block : ValueId) : Prop extends p.Over q [block] where
  symbols : q.s.module.symbols = p.s.module.symbols
  reaches : q.s.module.graph.Reaches p.here block

structure Left (p q : site.Front st mode) (after : Lowering) (targets pending : List ValueId) : Prop where
  past : p.Over q pending
  turned : site.Turned q.s.module.symbols st q.s q.here after targets
  outward : ∀ target ∈ targets, Outward st p.s target
  typed : mode.safe → after.module.graph.Typed

theorem inside (p : site.Front st mode) : p.here ∈ p.s.module.graph.layout site.func :=
  p.filling.building.member

theorem typed (p : site.Front st mode) (isSafe : mode.safe) : p.s.module.graph.Typed := (p.sane isSafe).typed

theorem fillable (p : site.Front st mode) (isSafe : mode.safe) :
    site.Fillable p.s.module.symbols st p.s.module p.here :=
  ⟨p.filling.building, p.opened, p.typed isSafe⟩

def reached {after : Lowering} {there : ValueId} (p : site.Front st mode)
    (reached : site.Reached scs st p.s p.here after there pending)
    (depth : scs.inner.length = p.s.module.symbols.inner.length) (opened : after.module.graph.lastOf there = none)
    (typed : mode.safe → after.module.graph.Typed) : site.Front st mode :=
  ⟨after, there, (p.filling.reached reached depth).exact, opened, fun isSafe =>
    (p.sane isSafe).reached p.filling.building reached (typed isSafe)⟩

theorem Over.grows (past : p.Over q pending) : p.s.module.graph.Grows site.entry q.s.module.graph :=
  past.reached.advances.grows

theorem Over.reaches (past : p.Over q pending) (mem : target ∈ p.s.module.graph.layout site.func)
    (reaches : p.s.module.graph.Reaches target b) : q.s.module.graph.Reaches target b :=
  past.grows.reaches p.filling.building.skeleton q.filling.building.skeleton mem reaches

private theorem Over.outward (past : p.Over q pending) (outward : Outward st q.s target) : Outward st p.s target := by
  refine outward.imp (Nat.le_trans past.grows.size) ?_
  rw [aims, past.reached.loops]
  exact id

theorem Over.undone (past : p.Over q pending) (intact : site.Intact q.s.module.symbols.inner.length m) :
    site.Intact p.s.module.symbols.inner.length m :=
  past.depth ▸ intact

def elsewhere (p : site.Front st mode) (contexts : List Location) (report : Report) : site.Front st mode where
  s := { p.s with module := { p.s.module with contexts, report } }
  here := p.here
  filling := ⟨p.filling.building.elsewhere contexts report, p.filling.loops, p.filling.nested, p.filling.leaves⟩
  opened := p.opened
  sane isSafe := { p.sane isSafe with }

theorem Over.elsewhere {ctx contexts' : List Location} {report report' : Report}
    (past : (p.elsewhere ctx report).Over q pending) : p.Over (q.elsewhere contexts' report') pending :=
  ⟨⟨past.reached.building.elsewhere _ _, past.reached.advances, past.reached.waiting, past.reached.nodup,
    past.reached.loops⟩, past.depth, past.route, past.edges⟩

theorem Over.trans (first : p.Over q pending) (second : q.Over r later) : p.Over r (pending ++ later) where
  reached := first.reached.trans second.reached
  depth := second.depth.trans first.depth
  route := by
    have begins := first.reached.advances.layout.subset p.inside
    have eq : aims st q.s = aims st p.s := by rw [aims, first.reached.loops, aims]
    rcases first.route with str | ⟨target, listed, goes⟩
    · have str := second.reaches begins str
      rcases second.route with onward | ⟨target, listed, goes⟩
      · exact .inl (str.trans onward)
      · refine .inr ⟨target, ?_, str.trans goes⟩
        rw [eq] at listed
        simp only [mem_append] at listed ⊢
        exact listed.imp_left .inr
    · refine .inr ⟨target, ?_, second.reaches begins goes⟩
      simp only [mem_append] at listed ⊢
      exact listed.imp_left .inl
  edges := by
    intro block mem notEntry target goes
    rcases second.edges block mem notEntry target goes with old | outward
    · have above := ((r.filling.building.skeleton.laid.blocks block).1 mem).1
      exact first.edges block (q.filling.building.skeleton.mem_of_exits above old) notEntry target old
    · exact .inr (first.outward outward)

private theorem exits_of (path : site.Reached scs st p.s p.here t there pending)
    (mem : b ∈ t.module.graph.layout site.func) (old : b.index < p.s.module.graph.values.size)
    (notHere : b ≠ p.here) (notEntry : b ≠ site.entry) :
    t.module.graph.exits b = p.s.module.graph.exits b := by
  have above := ((path.building.skeleton.laid.blocks b).1 mem).1
  have grows := path.advances.grows
  refine grows.exits_eq (lastOf_congr (path.advances.others b old notHere notEntry) fun v isIn => ?_)
  obtain ⟨_, d, found, _⟩ := p.filling.building.skeleton.coded.listed b v above isIn
  rw [opcode?_eq found, grows.opcode? (opcode?_eq found)]

/-- Blocks other than those that are filled keep their edges. -/
private theorem edges_of (path : site.Reached scs st p.s p.here t there pending) {P : ValueId → Prop}
    (new : ∀ block ∈ t.module.graph.layout site.func, p.s.module.graph.values.size ≤ block.index →
      ∀ target ∈ t.module.graph.exits block, P target)
    (here : ∀ target ∈ t.module.graph.exits p.here, P target) :
    ∀ block ∈ t.module.graph.layout site.func, block ≠ site.entry → ∀ target ∈ t.module.graph.exits block,
      target ∈ p.s.module.graph.exits block ∨ P target := by
  intro block mem notEntry target goes
  by_cases isHere : block = p.here
  · exact .inr (here target (isHere ▸ goes))
  · rcases Nat.lt_or_ge block.index p.s.module.graph.values.size with old | fresh
    · exact .inl (exits_of path mem old isHere notEntry ▸ goes)
    · exact .inr (new block mem fresh target goes)

/-- Code went to the end of the current block. -/
theorem straight (p : site.Front st mode) (str : site.Straight p.s.module.symbols st p.s.module module p.here)
    (typed : mode.safe → module.graph.Typed) : ∃ q : site.Front st mode, { p.s with module } = q.s ∧ p.Along q := by
  have ho := str.opened p.opened
  have path := (str.passed (s := p.s)).toReached
  have ns := str.building.names
  let q : site.Front st mode := p.reached path rfl ho typed
  refine ⟨q, rfl, ⟨?_, congrArg (·.inner.length) ns, .inl .start, edges_of path ?_ ?_⟩, ns, .start⟩
  · show site.Reached module.symbols st p.s p.here _ _ _
    rwa [ns]
  · intro block mem fresh
    have old := p.filling.building.lt_of_mem (str.layout ▸ mem)
    omega
  · show ∀ target ∈ module.graph.exits p.here, _
    rw [exits_of_open ho]
    simp

theorem made {t : Lowering} {name : Option String}
    (path : site.Reached p.s.module.symbols st p.s p.here t p.here [b])
    (add : Builder.BlockAdded p.s.module.graph t.module.graph b site.func name)
    (typed : mode.safe → t.module.graph.Typed) :
    ∃ q : site.Front st mode, t = q.s ∧ q.here = p.here ∧ p.Over q [b] ∧ q.s.module.symbols = p.s.module.symbols := by
  have ho : t.module.graph.lastOf p.here = none := by rw [add.lastOf, p.opened]
  have ns := path.building.names
  refine ⟨p.reached path rfl ho typed, rfl, rfl, ⟨?_, congrArg (·.inner.length) ns, .inl .start,
    edges_of path ?_ ?_⟩, ns⟩
  · show site.Reached t.module.symbols st p.s p.here t _ _
    rwa [ns]
  · intro other mem fresh
    rw [Graph.Skeleton.layout_blockAdded add, mem_append, mem_singleton] at mem
    rcases mem with old | rfl
    · exact absurd (p.filling.building.lt_of_mem old) (Nat.not_lt_of_le fresh)
    · rw [exits_of_open (lastOf_of_blank add.code_self)]
      simp
  · rw [exits_of_open ho]
    simp

theorem Left.reached (left : p.Left q t dests pending) :
    site.Reached q.s.module.symbols st p.s p.here t q.here pending := by
  have way := left.past.reached.trans left.turned.reached
  rwa [append_nil] at way

theorem Left.reaches (left : p.Left q t dests pending) (inside : target ∈ q.s.module.graph.layout site.func)
    (reaches : q.s.module.graph.Reaches target b) :
    t.module.graph.Reaches target b :=
  left.turned.reached.advances.grows.reaches q.filling.building.skeleton left.turned.reached.building.skeleton
    inside reaches

/-- If there is nowhere else to go, control gets to where the last block leads. -/
theorem Left.arrives (left : p.Left q t [target] []) (only : ∀ other ∈ aims st p.s, other = target) :
    t.module.graph.Reaches p.here target := by
  have begins := left.past.reached.advances.layout.subset p.inside
  rcases left.past.route with str | ⟨other, isIn, goes⟩
  · exact (left.reaches begins str).next ((left.turned.exits target).2 (by simp))
  · exact only other isIn ▸ left.reaches begins goes

theorem Left.edges (left : p.Left q t dests pending) :
    ∀ block ∈ t.module.graph.layout site.func, block ≠ site.entry → ∀ target ∈ t.module.graph.exits block,
      target ∈ p.s.module.graph.exits block ∨ Outward st p.s target := by
  intro block mem notEntry target goes
  have edges := edges_of left.turned.reached (P := Outward st p.s) ?_ ?_ block mem notEntry target goes
  · refine edges.elim (left.past.edges block ?_ notEntry target) .inr
    rwa [← left.turned.layout]
  · intro other mem fresh
    rw [left.turned.layout] at mem
    exact absurd (q.filling.building.lt_of_mem mem) (Nat.not_lt_of_le fresh)
  · exact fun target goes => left.outward target ((left.turned.exits target).1 goes)

/-- Code goes on in a block that waited. -/
theorem Left.enter (left : p.Left q t dests (b :: later))
    (goes : ∃ target ∈ dests, target ∈ b :: later ∨
      target ∈ q.s.module.graph.layout site.func ∧ q.s.module.graph.Reaches target b) :
    Lower.Finishes mode.safe (Lower.build (Builder.setInsertPoint b)) t broken fun _ last =>
      ∃ r : site.Front st mode, last = r.s ∧ r.here = b ∧ p.Over r later ∧
        r.s.module.symbols = q.s.module.symbols ∧ r.s.module.graph = t.module.graph := by
  refine (Lower.setInsertPoint_finishes left.reached left.turned.last).mono (fun _ bad => bad) ?_
  rintro _ last ⟨reached, blank, eq⟩
  have ns := reached.building.names
  have depth : q.s.module.symbols.inner.length = p.s.module.symbols.inner.length := left.past.depth
  refine ⟨p.reached reached depth (lastOf_of_blank blank) fun isSafe => eq ▸ left.typed isSafe, rfl, rfl,
    ⟨?_, (congrArg (·.inner.length) ns).trans depth, ?_, ?_⟩, ns, eq⟩
  · show site.Reached last.module.symbols st p.s p.here last _ _
    rwa [ns]
  · show last.module.graph.Reaches p.here b ∨ ∃ target ∈ later ++ aims st p.s, last.module.graph.Reaches p.here target
    rw [eq]
    have begins := left.past.reached.advances.layout.subset p.inside
    rcases left.past.route with str | ⟨target, listed, reaches⟩
    · obtain ⟨target, isTarget, waits⟩ := goes
      have arrives := (left.reaches begins str).next ((left.turned.exits target).2 isTarget)
      rcases waits with waits | ⟨inside, onward⟩
      · rcases mem_cons.1 waits with rfl | listed
        · exact .inl arrives
        · exact .inr ⟨target, mem_append_left _ listed, arrives⟩
      · exact .inl (arrives.trans (left.reaches inside onward))
    · have reaches := left.reaches begins reaches
      rcases mem_cons.1 listed with rfl | listed
      · exact .inl reaches
      · exact .inr ⟨target, listed, reaches⟩
  · show ∀ b ∈ last.module.graph.layout site.func, _ → ∀ target ∈ last.module.graph.exits b, _
    rw [eq]
    exact left.edges

theorem Over.refl (p : site.Front st mode) : p.Over p [] :=
  ⟨(Passed.refl p.filling.building).toReached, rfl, .inl .start, fun _ _ _ _ goes => .inl goes⟩

/-- The body of a loop was lowered. What jumps to its condition or out of it gets to the block after it. -/
theorem Over.loop {cond stop : ValueId} {inner : site.Front st mode} (past : p.Over q [stop])
    (inside : cond ∈ q.s.module.graph.layout site.func) (outward : Outward st p.s cond)
    (leads : q.s.module.graph.Reaches cond stop) (body : inner.Over r [])
    (isInner : inner.s = { q.s with loops := ⟨cond, stop⟩ :: q.s.loops }) (sameHere : inner.here = q.here) :
    ∃ r' : site.Front st mode, r'.s = { r.s with loops := r.s.loops.tail } ∧ p.Over r' [stop] ∧
      cond ∈ r'.s.module.graph.layout site.func ∧ r'.s.module.graph.Reaches cond stop := by
  obtain ⟨s1, _, filling1, opened1, _⟩ := inner
  subst isInner sameHere
  have loops : r.s.loops = ⟨cond, stop⟩ :: q.s.loops := body.reached.loops
  have looped : site.Reached r.s.module.symbols st q.s q.here { r.s with loops := r.s.loops.tail } r.here [] :=
    ⟨body.reached.building, body.reached.advances, by simp, nodup_nil, by rw [loops]; rfl⟩
  have way := past.reached.trans looped
  have grows : q.s.module.graph.Grows site.entry r.s.module.graph := body.grows
  have grown : ∀ {a b : ValueId}, a ∈ q.s.module.graph.layout site.func → q.s.module.graph.Reaches a b →
      r.s.module.graph.Reaches a b := fun mem reaches =>
    grows.reaches q.filling.building.skeleton r.filling.building.skeleton mem reaches
  have eq : aims st q.s = aims st p.s := by rw [aims, past.reached.loops, aims]
  refine ⟨p.reached way (body.depth.trans past.depth) r.opened r.typed, rfl,
    ⟨way, body.depth.trans past.depth, ?_, ?_⟩, body.reached.advances.layout.subset inside, grown inside leads⟩
  · have begins := past.reached.advances.layout.subset p.inside
    rcases past.route with str | ⟨target, listed, goes⟩
    · have str := grown begins str
      rcases body.route with onward | ⟨target, listed, goes⟩
      · exact .inl (str.trans onward)
      · rcases mem_aims_loop.1 listed with rfl | rfl | outer
        · exact .inr ⟨stop, by simp, (str.trans goes).trans (grown inside leads)⟩
        · exact .inr ⟨target, by simp, str.trans goes⟩
        · exact .inr ⟨target, mem_append_right _ (eq ▸ outer), str.trans goes⟩
    · exact .inr ⟨target, listed, grown begins goes⟩
  · intro block mem notEntry target goes
    rcases body.edges block mem notEntry target goes with old | new | listed
    · have above := ((r.filling.building.skeleton.laid.blocks block).1 mem).1
      exact past.edges block (q.filling.building.skeleton.mem_of_exits above old) notEntry target old
    · exact .inr (past.outward (.inl new))
    · rcases mem_aims_loop.1 listed with rfl | rfl | outer
      · exact .inr outward
      · exact .inr (.inl (past.reached.waiting target (by simp)).new)
      · exact .inr (past.outward (.inr outer))

theorem leave (p : site.Front st mode) (inside : target ∈ p.s.module.graph.layout site.func)
    (aim : target ∈ aims st p.s) :
    Lower.Finishes mode.safe (do
      let _ ← Lower.build (Builder.jump target)
      Lower.continueUnreachable) p.s broken fun _ t => ∃ q : site.Front st mode, t = q.s ∧ p.Over q [] ∧
        p.s.module.graph.values.size < q.s.module.graph.values.size ∧ site.Lost q.s.module.graph q.here := by
  refine (Lower.jump_finishes p.filling.building p.opened p.typed inside).bind ?_
  intro _ s1 ⟨turned, typed1⟩
  have left : p.Left p s1 [target] [] := ⟨.refl p, turned, by simpa using .inr aim, typed1⟩
  refine (Lower.newBlock_finishes turned.reached.building typed1).bind ?_
  intro block s2 ⟨⟨reached2, add⟩, typed2⟩
  have exits : ∀ w, s2.module.graph.exits w = s1.module.graph.exits w := fun w =>
    reached2.advances.grows.exits_eq (add.lastOf w)
  refine (Lower.setInsertPoint_finishes (left.reached.trans reached2) (by rw [add.lastOf]; exact turned.last)).mono
    (fun _ bad => bad) ?_
  rintro _ t ⟨path, blank, eq⟩
  have ns := path.building.names
  refine ⟨p.reached path rfl (lastOf_of_blank blank) fun isSafe => eq ▸ typed2 isSafe, rfl,
    ⟨?_, congrArg (·.inner.length) ns, .inr ⟨target, mem_append_right _ aim, ?_⟩, ?_⟩, ?_, ?_, ?_⟩
  · show site.Reached t.module.symbols st p.s p.here t _ _
    rwa [ns]
  · show t.module.graph.Reaches p.here target
    refine .next .start ?_
    rw [eq, exits]
    exact (turned.exits target).2 (by simp)
  · show ∀ w ∈ t.module.graph.layout site.func, _ → ∀ target ∈ t.module.graph.exits w, _
    rw [eq]
    intro w mem notEntry target goes
    rw [exits] at goes
    exact left.edges w (left.reached.building.skeleton.mem_of_exits
      ((reached2.building.skeleton.laid.blocks w).1 mem).1 goes) notEntry target goes
  · show p.s.module.graph.values.size < t.module.graph.values.size
    rw [eq, add.size]
    exact Nat.lt_succ_of_le left.reached.advances.grows.size
  · show t.module.graph.values.size = block.index + 1
    rw [eq, add.size, add.fresh]
  · -- The new block is in no list of targets, as all targets are older.
    show ∀ w ∈ t.module.graph.layout site.func, w ≠ site.entry → block ∉ t.module.graph.exits w
    rw [eq]
    intro w mem notEntry goes
    rw [exits] at goes
    have old := left.reached.building.lt_of_mem (left.reached.building.skeleton.exits_mem
      (left.reached.building.skeleton.mem_of_exits ((reached2.building.skeleton.laid.blocks w).1 mem).1 goes) goes)
    rw [add.fresh] at old
    exact absurd old (Nat.lt_irrefl _)

/-- Where code may jump to from a point was made before it. -/
private theorem lt_of_aim (p : site.Front st mode) (aim : target ∈ aims st p.s) :
    target.index < p.s.module.graph.values.size := by
  refine p.filling.building.lt_of_mem ?_
  rcases mem_append.1 aim with isExit | aim
  · exact p.filling.building.exit target (Option.mem_toList.1 isExit)
  · obtain ⟨dests, mem, isIn⟩ := mem_flatMap.1 aim
    have inside := p.filling.loops dests mem
    simp only [mem_cons, not_mem_nil, or_false] at isIn
    rcases isIn with rfl | rfl
    · exact inside.1
    · exact inside.2

/-- What is lowered from a point that nothing leads to is a stretch that nothing leads into. -/
theorem Over.seals (past : p.Over q []) (lost : site.Lost p.s.module.graph p.here) {loc : Location} :
    site.Sealed q.s.module.graph ⟨loc, p.s.module.graph.values.size, q.s.module.graph.values.size⟩ := by
  obtain ⟨size, unled⟩ := lost
  have skeleton := q.filling.building.skeleton
  -- What is not in the stretch is old and not the block where it begins, so that its code is as it was.
  have away : ∀ block : ValueId, block.index < q.s.module.graph.values.size →
      ¬ Stretch.Covers ⟨loc, p.s.module.graph.values.size, q.s.module.graph.values.size⟩ block →
        block.index < p.s.module.graph.values.size ∧ block ≠ p.here := by
    intro block inside outside
    have pre : block.index + 1 < p.s.module.graph.values.size :=
      Nat.lt_of_not_le fun le => outside ⟨le, inside⟩
    refine ⟨by omega, ?_⟩
    rintro rfl
    omega
  refine ⟨Nat.le_refl _, fun block mem notEntry target goes covers => ?_, fun v d low high found => ?_⟩
  · by_contra outside
    obtain ⟨old, notHere⟩ := away block (q.filling.building.lt_of_mem mem) outside
    rw [exits_of past.reached mem old notHere notEntry] at goes
    have inside := p.filling.building.skeleton.mem_of_exits ((skeleton.laid.blocks block).1 mem).1 goes
    have led := p.filling.building.lt_of_mem (p.filling.building.skeleton.exits_mem inside goes)
    have low : p.s.module.graph.values.size ≤ target.index + 1 := covers.1
    obtain rfl : target = p.here := congrArg ValueId.mk (show target.index = p.here.index by omega)
    exact unled block inside notEntry goes
  · by_contra neither
    obtain ⟨notEntry, outside⟩ := not_or.1 neither
    have above := Nat.le_trans p.filling.building.skeleton.framed.size low
    obtain ⟨isNew, isIn⟩ := skeleton.coded.homes v d above found
    obtain ⟨block, hb⟩ := block_of_mem_code isIn
    obtain ⟨old, notHere⟩ := away d.parent (lt_of_kind? hb) outside
    rw [past.reached.advances.others d.parent old notHere notEntry] at isIn
    obtain ⟨_, d', found', _⟩ := p.filling.building.skeleton.coded.listed d.parent v isNew isIn
    exact absurd (lt_of_kind? found') (Nat.not_lt_of_le low)

end Front

@[reducible] def basic (site : Site) (state : FunctionState) (mode : Mode) : Lower.Scheme where
  Point := site.Front state mode
  function := state
  state := Front.s
  here := Front.here
  safe := mode.safe
  Broken p after := site.Intact p.s.module.symbols.inner.length after.module ∧ (mode.safe → after.module.graph.Typed)
  Fit use p v := p.s.module.graph.Plain v ∧ (mode.safe → use.Suits p.s.module.graph v)
  Along := Front.Along
  Forked := Front.Forked
  Over := Front.Over
  Left := Front.Left
  Aim p q block := block ∈ q.s.module.graph.layout site.func ∧ Outward state p.s block
  Leads p a b := a ∈ p.s.module.graph.layout site.func ∧ p.s.module.graph.Reaches a b
  Lost := site.Lost
  Sealed := site.Sealed
  Sized ty := mode.safe → ty.isVoid = false
  Fits name count := mode.safe → ∀ f ∈ mode.defs, f.name = name → f.params.length = count

open Lower

section Basic
variable {mode : Mode}

variable {action : Builder ValueId}

private theorem basic_steps (p : site.Front st mode) (gives sure : ValueId → Graph → Prop)
    (each : ∀ v module, action p.s.module = .ok (v, module) →
      site.Straight p.s.module.symbols st p.s.module module p.here ∧ gives v module.graph)
    (adds : mode.safe → site.Adds p.s.module.symbols st p.here action p.s.module sure) :
    (site.basic st mode).Steps p (build action) fun v q =>
      gives v q.s.module.graph ∧ (mode.safe → sure v q.s.module.graph) := by
  have ends : Ends (build action) p.s ((site.basic st mode).Broken p) fun v t =>
      (site.Straight p.s.module.symbols st p.s.module t.module p.here ∧ gives v t.module.graph) ∧
        t = { p.s with module := t.module } :=
    .build fun v module done => ⟨each v module done, rfl⟩
  refine (Finishes.of_ends adds ends).mono (fun _ bad => bad) ?_
  intro v t ⟨⟨⟨str, holds⟩, isAfter⟩, surely⟩
  obtain ⟨q, eq, along⟩ := p.straight str fun isSafe => (surely isSafe).2.1
  rw [← isAfter] at eq
  subst eq
  exact ⟨q, rfl, along, holds, fun isSafe => (surely isSafe).2.2⟩

private theorem basic_built (p : site.Front st mode) {use : Purpose}
    (each : ∀ v module, action p.s.module = .ok (v, module) →
      site.Straight p.s.module.symbols st p.s.module module p.here ∧ module.graph.Plain v)
    (adds : mode.safe → site.Adds p.s.module.symbols st p.here action p.s.module fun v g => use.Suits g v) :
    (site.basic st mode).Yields p (build action) use :=
  basic_steps p (fun v g => g.Plain v) (fun v g => use.Suits g v) each adds

private theorem basic_computes (site : Site) (st : FunctionState) (mode : Mode) : (site.basic st mode).Computes where
  refl p := ⟨.refl p, rfl, .start⟩
  trans first second := ⟨first.toOver.trans second.toOver, second.symbols.trans first.symbols,
    (second.toOver.reaches (first.reached.advances.layout.subset (Front.inside _)) first.reaches).trans second.reaches⟩
  broken along intact := ⟨along.toOver.undone intact.1, intact.2⟩
  reported {p} report := ⟨p.filling.building.toIntact.elsewhere p.s.module.contexts report, p.typed⟩
  stays along fit := ⟨along.grows.plain fit.1, fun isSafe => (fit.2 isSafe).grown fit.1 along.grows⟩
  serves serves fit := by
    refine ⟨fit.1, fun isSafe => ?_⟩
    cases serves with
    | integer => exact (fit.2 isSafe).holding
    | truth => trivial
    | address =>
      obtain ⟨_, pointee, _, _, isTy⟩ := fit.2 isSafe
      exact ⟨pointee, isTy⟩
    | cell => exact fit.2 isSafe
  inside fit := fit.1.inside
  context p location := by
    refine ⟨p.elsewhere (location :: p.s.module.contexts) p.s.module.report, rfl,
      fun s intact => ⟨intact.1.elsewhere _ s.module.report, intact.2⟩, fun r along => ?_, fun r past => ?_⟩
    · exact ⟨r.elsewhere r.s.module.contexts.tail r.s.module.report, rfl,
        ⟨along.toOver.elsewhere, along.symbols, along.reaches⟩, fun _ _ fit => fit⟩
    · exact ⟨r.elsewhere r.s.module.contexts.tail r.s.module.report, rfl, past.elsewhere, rfl⟩
  name {p _ _} found := ⟨p.filling.building.symbols.lookup found, fun _ => trivial⟩
  address {p _ kind} fit found isAddress := by
    refine ⟨fit.1, fun isSafe => ?_⟩
    obtain ⟨pointee, isTy⟩ := (p.typed isSafe).pointer found isAddress
    exact ⟨kind, pointee, found, isAddress, isTy⟩
  integer {_ _ ty} fit isTy isInteger :=
    ⟨fit.1, fun isSafe => ⟨fit.1, (fit.2 isSafe).notAddress, ty, isTy, isInteger⟩⟩
  number fit isTy isInteger := by
    refine ⟨fit.1, fun isSafe => ?_⟩
    obtain ⟨kind, pointee, found, isAddress, isPointer⟩ := fit.2 isSafe
    cases isTy.symm.trans isPointer
    exact .of_address fit.1 found isAddress isTy (by simpa [Ty.pointee?, Ty.unqualified] using isInteger)
  callee {p _ _ _} found fits := by
    have isIn := mem_of_find?_eq_some found
    refine ⟨p.filling.building.callable _ isIn, fun isSafe => ?_⟩
    obtain ⟨f, defined, args, isFn, isTy⟩ := (p.sane isSafe).callees _ isIn
    have named := find?_some found
    rw [isFn] at named
    exact ⟨f.ty, isTy, rfl, (length_map _).trans (fits isSafe f defined (by simpa using named))⟩
  constInt {p _ _} := basic_built p (fun _ _ done => p.filling.building.added done rfl)
    fun isSafe => (p.fillable isSafe).constInt.mono fun _ _ _ => trivial
  constStr {p _} := basic_built p (fun _ _ done => p.filling.building.added done rfl)
    fun isSafe => (p.fillable isSafe).constStr.mono fun _ _ _ => trivial
  valueOf {p _} fit := basic_built p (fun _ _ done => upkeep.valueOf p.filling.building fit.1 done)
    fun isSafe => (p.fillable isSafe).valueOf ((p.typed isSafe).holding fit.1)
  toBool {p _} fit := basic_built p (fun _ _ done => upkeep.toBool p.filling.building fit.1 done)
    fun isSafe => (p.fillable isSafe).toBool (fit.2 isSafe)
  unary {p _ _} fit := basic_built p (fun _ _ done => upkeep.unary p.filling.building fit.1 done)
    fun isSafe => ((p.fillable isSafe).unary (fit.2 isSafe)).mono fun _ _ _ => trivial
  binary {p _ _ _ _ _} left right := basic_built p (fun _ _ done => upkeep.binary p.filling.building left.1 right.1 done)
    fun isSafe => ((p.fillable isSafe).binary (isBinary_opcode _ _ _) (left.2 isSafe) (right.2 isSafe)).mono
      fun _ _ _ => trivial
  icmp {p _ _ _} left right := basic_built p (fun _ _ done => upkeep.icmp p.filling.building left.1 right.1 done)
    fun isSafe => ((p.fillable isSafe).icmp (left.2 isSafe) (right.2 isSafe)).mono fun _ _ _ => trivial
  assign {p _ _} slot fit := basic_built p (fun _ _ done => upkeep.assign p.filling.building slot.1 fit.1 done)
    fun isSafe => by
      obtain ⟨pointee, isTy⟩ := slot.2 isSafe
      exact ((p.fillable isSafe).assign slot.1 isTy fit.1).mono fun _ _ _ => trivial
  call {p _ _} callee args :=
    basic_built p (fun _ _ done => upkeep.call p.filling.building callee.1 (fun v isIn => (args v isIn).1) done)
    fun isSafe => by
      obtain ⟨ty, isTy, isFunc, count⟩ := callee.2 isSafe
      exact ((p.fillable isSafe).call callee.1 isTy isFunc count fun v isIn => (args v isIn).1).mono
        fun _ _ _ => trivial
  bool _ := rfl
  alloca {p _ _} sized := basic_built p (fun _ _ done => p.filling.building.alloca done)
    fun isSafe => ((p.fillable isSafe).alloca (sized isSafe) fun isEntry => absurd isEntry (p.sane isSafe).apart).mono
      fun _ _ made => ⟨_, made.2⟩
  store {p _ _} fit slot := by
    refine (basic_steps p (fun _ _ => True) (fun _ _ => True)
      (fun _ _ done => ⟨upkeep.store p.filling.building fit.1 slot.1 done, trivial⟩) fun isSafe => ?_).mono (fun _ bad => bad) ?_
    · obtain ⟨pointee, isTy⟩ := slot.2 isSafe
      exact (p.fillable isSafe).store fit.1 slot.1 isTy rfl
    rintro _ _ ⟨q, rfl, along, _⟩
    exact ⟨q, rfl, along, trivial⟩
  load {p _} slot := basic_built p (fun _ _ done => upkeep.load p.filling.building slot.1 done) fun isSafe => by
      obtain ⟨pointee, isTy⟩ := slot.2 isSafe
      exact ((p.fillable isSafe).load slot.1 isTy rfl).mono fun _ _ _ => trivial
  fork {p v op next final} fit tl := by
    refine (newBlock_finishes p.filling.building p.typed).bind ?_
    rintro rhsBlock s1 ⟨⟨reached1, added1⟩, typed1⟩
    obtain ⟨p1, rfl, here1, over1, names1⟩ := Front.made reached1 added1 typed1
    refine (newBlock_finishes p1.filling.building typed1).bind ?_
    rintro endBlock s2 ⟨⟨reached2, added2⟩, typed2⟩
    obtain ⟨p2, rfl, here2, over2, names2⟩ := Front.made reached2 added2 typed2
    have bs := over1.trans over2
    have waits := bs.reached.waiting
    refine (logicBranch_finishes p2.filling.building p2.opened p2.typed (bs.grows.plain fit.1)
      (fun isSafe => (fit.2 isSafe).grown fit.1 bs.grows) (waits rhsBlock (by simp)).inside
      (waits endBlock (by simp)).inside).bind ?_
    rintro _ s3 ⟨turned, typed3⟩
    have left : p.Left p2 s3 [rhsBlock, endBlock] [rhsBlock, endBlock] :=
      ⟨bs, turned, fun target isIn => .inl (waits target isIn).new, typed3⟩
    refine (left.enter ⟨rhsBlock, by simp, by simp⟩).bind ?_
    rintro _ _ ⟨p4, rfl, _, over4, names4, same4⟩
    refine tl p4 endBlock ⟨over4, names4.trans (names2.trans names1), ?_⟩
    refine same4 ▸ .next .start ?_
    rw [← here1, ← here2]
    exact (turned.exits endBlock).2 (by simp)
  forked forked := ⟨fun _ fit => ⟨forked.grows.plain fit.1, fun isSafe => (fit.2 isSafe).grown fit.1 forked.grows⟩,
    fun _ intact => ⟨forked.toOver.undone intact.1, intact.2⟩⟩
  join {p q r block next final} forked along tl := by
    have past := forked.toOver.trans along.toOver
    have waits := past.reached.waiting block (by simp)
    refine (jump_finishes r.filling.building r.opened r.typed waits.inside).bind ?_
    rintro _ s1 ⟨turned, typed1⟩
    have left : p.Left r s1 [block] [block] := ⟨past, turned, by simpa using .inl waits.new, typed1⟩
    refine (left.enter ⟨block, by simp, by simp⟩).bind ?_
    rintro _ _ ⟨t, rfl, hb, over', ns, eq⟩
    refine tl t ⟨over', ns.trans (along.symbols.trans forked.symbols), ?_⟩
    have begins := forked.reached.advances.layout.subset p.inside
    rw [hb, eq]
    exact left.reaches (along.reached.advances.layout.subset begins) (along.toOver.reaches begins forked.reaches)

/-- The scheme of progress: blocks end once, and control goes on in blocks that waited. -/
theorem basic_controls (site : Site) (st : FunctionState) (mode : Mode) (leaves : st.exit.isSome) :
    (site.basic st mode).Controls where
  toComputes := basic_computes site st mode
  past along := along.toOver
  overs first second := first.trans second
  undone past intact := ⟨past.undone intact.1, intact.2⟩
  waits past block isIn := ⟨(past.reached.waiting block isIn).inside, .inl (past.reached.waiting block isIn).new⟩
  aims aim past := ⟨past.reached.advances.layout.subset aim.1, aim.2⟩
  leads along := ⟨along.reached.advances.layout.subset (Front.inside _), along.reaches⟩
  block {p _} := by
    refine (newBlock_finishes p.filling.building p.typed).mono (fun _ bad => bad) ?_
    intro block _ ⟨⟨path, add⟩, typed⟩
    obtain ⟨q, rfl, _, past, _⟩ := Front.made path add typed
    exact ⟨q, rfl, past, fun _ _ fit => ⟨past.grows.plain fit.1, fun isSafe => (fit.2 isSafe).grown fit.1 past.grows⟩⟩
  branch {p q _ a b _} past fit first second := by
    refine (branch_finishes q.filling.building q.opened q.typed fit.1 fit.2 first.1 second.1).mono (fun _ bad => bad) ?_
    exact fun _ _ ⟨turned, typed⟩ => ⟨past, turned, by simpa using ⟨first.2, second.2⟩, typed⟩
  jump {p q _ _} past aim := by
    refine (jumpUnlessTerminated_finishes q.filling.building q.opened q.typed aim.1).mono (fun _ bad => bad) ?_
    exact fun _ _ ⟨turned, typed⟩ => ⟨past, turned, by simpa using aim.2, typed⟩
  enter {p q after dests block later} left goes := by
    refine (left.enter goes).mono (fun _ bad => bad) ?_
    rintro _ _ ⟨r, rfl, hb, past, _, same⟩
    have layout : r.s.module.graph.layout site.func = q.s.module.graph.layout site.func := by
      rw [same, left.turned.layout]
    refine ⟨r, rfl, hb, past, fun w aim => ⟨layout ▸ aim.1, aim.2⟩, ?_, fun m isSealed => same ▸ isSealed⟩
    intro s0 ⟨inside, reaches⟩ target isTarget
    refine ⟨layout ▸ inside, same ▸ (left.reaches inside reaches).next ((left.turned.exits target).2 isTarget)⟩
  leave {p block} aim :=
    p.leave aim.1 (aim.2.resolve_left (Nat.not_le_of_lt (p.filling.building.lt_of_mem aim.1)))
  grown past := past.grows.size
  seals lost past := past.seals lost
  kept {p q r _ _ m} past began isSealed over' := by
    refine isSealed.grown over'.grows fun block mem notEntry target goes covers => ?_
    rcases over'.edges block mem notEntry target goes with old | new | aim
    · exact ⟨q.filling.building.skeleton.mem_of_exits ((r.filling.building.skeleton.laid.blocks block).1 mem).1 old, old⟩
    · exact absurd (Nat.lt_of_lt_of_le covers.2 isSealed.last) (Nat.not_lt_of_le new)
    · have pre := p.lt_of_aim (by rwa [Site.aims, past.reached.loops, ← Site.aims] at aim)
      have low := covers.1
      have began : p.s.module.graph.values.size < m.first := began
      omega
  ended {p q r after dest _ m} aim began isSealed left := by
    have pre := q.filling.building.lt_of_mem aim.1
    have began : q.s.module.graph.values.size < m.first := began
    refine isSealed.grown left.turned.reached.advances.grows fun block mem notEntry target goes covers => ?_
    rw [left.turned.layout] at mem
    by_cases isHere : block = r.here
    · obtain rfl : target = dest := by simpa using (left.turned.exits target).1 (isHere ▸ goes)
      have low := covers.1
      omega
    · rw [Front.exits_of left.turned.reached (left.turned.layout ▸ mem) (r.filling.building.lt_of_mem mem) isHere
        notEntry] at goes
      exact ⟨mem, goes⟩
  loop {p q cond stop} past aim leads := by
    have waits := past.reached.waiting stop (by simp)
    have filling : site.Filling q.s.module.symbols st { q.s with loops := ⟨cond, stop⟩ :: q.s.loops } q.here := by
      refine ⟨q.filling.building, ?_, q.filling.nested, q.filling.leaves⟩
      intro w member
      rcases mem_cons.1 member with rfl | member
      · exact ⟨aim.1, waits.inside⟩
      · exact q.filling.loops w member
    refine ⟨⟨{ q.s with loops := ⟨cond, stop⟩ :: q.s.loops }, q.here, filling, q.opened,
      fun isSafe => { q.sane isSafe with }⟩, rfl, fun _ intact => ⟨past.undone intact.1, intact.2⟩, ?_⟩
    intro r body
    obtain ⟨r', same, over', inside, leads'⟩ := past.loop aim.1 aim.2 leads.2 body rfl rfl
    exact ⟨r', same, over', ⟨inside, aim.2⟩, inside, leads'⟩
  scope p := by
    refine ⟨⟨{ p.s with module.symbols := p.s.module.symbols.push }, p.here,
      ⟨p.filling.building.push, p.filling.loops, Nat.succ_pos _, p.filling.leaves⟩, p.opened,
      fun isSafe => { p.sane isSafe with }⟩, rfl, fun _ intact => ⟨intact.1.pop, intact.2⟩, ?_⟩
    intro r past
    obtain ⟨building, depth⟩ := r.filling.building.pop past.depth
    refine ⟨⟨{ r.s with module.symbols := r.s.module.symbols.pop }, r.here,
      ⟨building, r.filling.loops, ?_, r.filling.leaves⟩, r.opened, fun isSafe => { r.sane isSafe with }⟩, rfl,
      ⟨⟨building, past.reached.advances, past.reached.waiting, past.reached.nodup, past.reached.loops⟩, depth,
      past.route, past.edges⟩, rfl⟩
    rw [depth]
    exact p.filling.nested
  current p := p.filling.building.current
  exit := by
    obtain ⟨exit, isExit⟩ := Option.isSome_iff_exists.1 leaves
    refine ⟨exit, isExit, fun p => ⟨p.filling.building.exit exit isExit, .inr ?_⟩⟩
    simp [Site.aims, isExit]
  result p slot isSlot := ⟨p.filling.building.returnSlot slot isSlot, fun isSafe => (p.sane isSafe).returnSlot slot isSlot⟩
  loops {p dests} member := by
    obtain ⟨continues, breaks⟩ := p.filling.loops dests member
    exact ⟨⟨continues, .inr (mem_append_right _ (mem_flatMap.2 ⟨dests, member, by simp⟩))⟩,
      breaks, .inr (mem_append_right _ (mem_flatMap.2 ⟨dests, member, by simp⟩))⟩
  declare {p name slot} fit := by
    obtain ⟨declared, depth⟩ := p.filling.building.declare p.filling.nested fit.1 name
    refine .build ⟨(), _, rfl, ⟨{ p.s with module.symbols := p.s.module.symbols.insert name slot }, p.here,
      ⟨declared, p.filling.loops, depth ▸ p.filling.nested, p.filling.leaves⟩, p.opened,
      fun isSafe => { p.sane isSafe with }⟩, rfl,
      ⟨⟨declared, .refl _ _ _, by simp, nodup_nil, rfl⟩, depth, .inl .start, fun _ _ _ _ goes => .inl goes⟩, trivial⟩
  warning {p text} := .build ⟨(), _, rfl, p.elsewhere _ _, rfl, Front.Over.elsewhere (q := p) (.refl p), trivial⟩

end Basic
end Site
end Midend
