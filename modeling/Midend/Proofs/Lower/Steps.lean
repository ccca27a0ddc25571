import Midend.Proofs.Lower.Outcome

/-! The way of lowering through the blocks of a function, and the steps by which it makes blocks,
ends them and goes on in others. -/
namespace Midend
open List Builder

namespace Site
variable {m : Module}

structure Waiting (site : Site) (start g : Graph) (there block : ValueId) : Prop where
  inside : block ∈ g.layout site.func
  new : start.values.size ≤ block.index
  blank : g.code block = []
  apart : block ≠ there
  notEntry : block ≠ site.entry

/-- Lowering went on from the end of one block to the end of another one, and some blocks
were made for the code that is to come. -/
structure Reached (site : Site) (scopes : ScopeTable ValueId) (state : FunctionState)
    (start : Lowering) (here : ValueId) (s : Lowering) (there : ValueId)
    (pending : List ValueId) : Prop where
  building : site.Building scopes state s.module there
  advances : site.Advances start.module.graph here s.module.graph there pending
  waiting : ∀ block ∈ pending, site.Waiting start.module.graph s.module.graph there block
  nodup : pending.Nodup
  loops : s.loops = start.loops

structure Passed (site : Site) (scopes : ScopeTable ValueId) (state : FunctionState)
    (start : Lowering) (here : ValueId) (s : Lowering) (there : ValueId) : Prop
    extends site.Reached scopes state start here s there [] where
  opened : start.module.graph.lastOf here = none → s.module.graph.lastOf there = none

structure Turned (site : Site) (scopes : ScopeTable ValueId) (state : FunctionState) (s : Lowering)
    (here : ValueId) (after : Lowering) (targets : List ValueId) : Prop where
  reached : site.Reached scopes state s here after here []
  last : ∃ inst, after.module.graph.lastOf here = some inst
  layout : after.module.graph.layout site.func = s.module.graph.layout site.func
  exits : ∀ target, target ∈ after.module.graph.exits here ↔ target ∈ targets

variable {u : Site} {scs scopes' : ScopeTable ValueId} {st state' : FunctionState}
  {s0 middle s : Lowering} {here mid there : ValueId} {pending later : List ValueId}

theorem Intact.elsewhere {depth : Nat} (intact : u.Intact depth m) (contexts : List Location) (report : Report) :
    u.Intact depth { m with contexts, report } :=
  ⟨intact.skeleton, intact.symbols, intact.depth, intact.outermost, intact.functions, intact.globals, intact.callable⟩

theorem Building.elsewhere (building : u.Building scs st m here) (contexts : List Location) (report : Report) :
    u.Building scs st { m with contexts, report } here :=
  ⟨building.toIntact.elsewhere contexts report, building.noReturn, building.names, building.current, building.function,
    building.entry, building.exit, building.returnSlot, building.point, building.member⟩

theorem Building.lt_of_mem (building : u.Building scs st m here) {b : ValueId}
    (mem : b ∈ m.graph.layout u.func) : b.index < m.graph.values.size :=
  Graph.lt_of_isBlock ((building.skeleton.laid.blocks b).1 mem).2

theorem Waiting.kept {g middle t : Graph} {b : ValueId}
    (waiting : u.Waiting g middle mid b) (lt : b.index < middle.values.size)
    (advances : u.Advances middle mid t there later) : u.Waiting g t there b where
  inside := advances.layout.subset waiting.inside
  new := waiting.new
  blank := (advances.others b lt waiting.apart waiting.notEntry).trans waiting.blank
  apart := by
    rintro rfl
    rcases advances.fresh with eq | new
    · exact waiting.apart eq
    · exact absurd lt (Nat.not_lt_of_le new)
  notEntry := waiting.notEntry

theorem Reached.trans (first : u.Reached scs st s0 here middle mid pending)
    (second : u.Reached scopes' state' middle mid s there later) :
    u.Reached scopes' state' s0 here s there (pending ++ later) := by
  have lt : ∀ b ∈ pending, b.index < middle.module.graph.values.size :=
    fun b mem => first.building.lt_of_mem (first.waiting b mem).inside
  refine ⟨second.building, first.advances.trans second.advances second.building.skeleton, ?_, ?_,
    second.loops.trans first.loops⟩
  · intro b mem
    rcases mem_append.1 mem with early | late
    · exact (first.waiting b early).kept (lt b early) second.advances
    · have waiting := second.waiting b late
      exact ⟨waiting.inside, Nat.le_trans first.advances.grows.size waiting.new, waiting.blank,
        waiting.apart, waiting.notEntry⟩
  · refine nodup_append.2 ⟨first.nodup, second.nodup, ?_⟩
    rintro b early _ late rfl
    exact absurd (lt b early) (Nat.not_lt_of_le (second.waiting b late).new)

theorem Reached.perm (path : u.Reached scs st s0 here s there pending)
    (perm : pending.Perm later) : u.Reached scs st s0 here s there later where
  building := path.building
  advances := { path.advances with
    closed := fun b mem ho => (path.advances.closed b mem ho).imp_right
      (Or.imp_left perm.mem_iff.1) }
  waiting b mem := path.waiting b (perm.mem_iff.2 mem)
  nodup := perm.nodup_iff.1 path.nodup
  loops := path.loops

theorem Passed.trans (first : u.Passed scs st s0 here middle mid)
    (second : u.Passed scopes' state' middle mid s there) : u.Passed scopes' state' s0 here s there :=
  ⟨first.toReached.trans second.toReached, fun ho => second.opened (first.opened ho)⟩

theorem Passed.refl (building : u.Building scs st s.module here) : u.Passed scs st s here s here :=
  ⟨⟨building, .refl _ _ _, by simp, nodup_nil, rfl⟩, id⟩

theorem Passed.plain (passed : u.Passed scs st s0 here s there) {v : ValueId}
    (plain : s0.module.graph.Plain v) : s.module.graph.Plain v :=
  passed.advances.grows.plain plain

theorem Ended.turned {op : Opcode} {dests : List ValueId}
    (ended : u.Ended scs st s.module m here op dests) :
    u.Turned scs st s here { s with module := m } dests :=
  ⟨⟨ended.building, ended.advances, by simp, nodup_nil, rfl⟩, ended.closed, ended.layout, fun _ => by rw [ended.exits]⟩

theorem Straight.passed (str : u.Straight scs st s.module m here) :
    u.Passed scs st s here { s with module := m } here :=
  ⟨⟨str.building, str.advances, by simp, nodup_nil, rfl⟩, str.opened⟩

end Site

namespace Lower
variable {u : Site} {scs : ScopeTable ValueId} {st : FunctionState} {s : Lowering}
  {here : ValueId} {broken : Lowering → Prop} {n : Option String}

theorem createBlock_ends (building : u.Building scs st s.module here) :
    Ends (build (Builder.createBlock u.func n)) s broken fun b t =>
      u.Reached scs st s here t here [b] ∧
        Builder.BlockAdded s.module.graph t.module.graph b u.func n := by
  refine .build fun b module done => ?_
  obtain ⟨building', advances, add⟩ := building.createBlock done
  refine ⟨⟨building', advances, ?_, nodup_singleton _, rfl⟩, add⟩
  intro other mem
  obtain rfl := mem_singleton.1 mem
  exact ⟨add.mem_layout, Nat.le_of_eq (by rw [add.fresh]), add.code_self, (add.ne_of_lt building.here_lt).symm,
    (add.ne_of_lt (building.lt_of_mem building.skeleton.entry_mem)).symm⟩

private theorem newBlock_made (building : u.Building scs st s.module here) :
    Ends (newBlock n) s broken fun b t => u.Reached scs st s here t here [b] ∧
        Builder.BlockAdded s.module.graph t.module.graph b u.func n := by
  have current : Ends currentFunction s broken fun f t => f = u.func ∧ t = s := by
    refine .get ?_
    rw [building.current]
    exact .pure ⟨building.function, rfl⟩
  refine current.bind ?_
  rintro _ _ ⟨rfl, rfl⟩
  exact createBlock_ends building

private theorem newBlock_ends (building : u.Building scs st s.module here) :
    Ends (newBlock n) s broken fun b t => u.Reached scs st s here t here [b] :=
  (newBlock_made building).mono (fun _ bad => bad) fun _ _ made => made.1

theorem setInsertPoint_ends {s0 : Lowering} {mid dest : ValueId} {later : List ValueId}
    (path : u.Reached scs st s0 here s mid (dest :: later))
    (last : ∃ i, s.module.graph.lastOf mid = some i) :
    Ends (build (Builder.setInsertPoint dest)) s broken fun _ t =>
      u.Reached scs st s0 here t dest later ∧
        t.module.graph.code dest = [] ∧ t.module.graph = s.module.graph := by
  refine .build fun _ module done => ?_
  have waiting := path.waiting dest mem_cons_self
  obtain ⟨fresh, nodup⟩ := nodup_cons.1 path.nodup
  obtain ⟨building, advances, eq⟩ := path.building.setInsertPoint path.advances last
    waiting.inside waiting.new (fun b mem => mem_cons.1 mem) done
  refine ⟨⟨building, advances, ?_, nodup, path.loops⟩, ?_, eq⟩
  · intro b mem
    have other := path.waiting b (mem_cons_of_mem _ mem)
    refine ⟨?_, other.new, ?_, ?_, other.notEntry⟩
    · simpa only [eq] using other.inside
    · simpa only [eq] using other.blank
    · rintro rfl
      exact fresh mem
  · simpa only [eq] using waiting.blank

theorem store_ends {val slot : ValueId} (building : u.Building scs st s.module here)
    (plain : s.module.graph.Plain val) (plainSlot : s.module.graph.Plain slot) :
    Ends (build (Builder.store val slot)) s broken fun _ t => u.Passed scs st s here t here :=
  .build fun _ _ done => (Site.upkeep.store building plain plainSlot done).passed

section Targets
variable {v dest other : ValueId}

section
variable (building : u.Building scs st s.module here)
include building

theorem jump_ends (into : dest ∈ s.module.graph.layout u.func) :
    Ends (build (Builder.jump dest)) s broken fun _ t => u.Turned scs st s here t [dest] :=
  .build fun _ _ done => (building.jump into done).turned

theorem branch_ends (plain : s.module.graph.Plain v)
    (into : dest ∈ s.module.graph.layout u.func) (inside' : other ∈ s.module.graph.layout u.func) :
    Ends (build (Builder.branch v dest other)) s broken fun _ t =>
      u.Turned scs st s here t [dest, other] :=
  .build fun _ _ done => (building.branch plain into inside' done).turned

theorem logicBranch_ends {op : LogicOp}
    (plain : s.module.graph.Plain v) (into : dest ∈ s.module.graph.layout u.func)
    (inside' : other ∈ s.module.graph.layout u.func) :
    Ends (build (logicBranch op v dest other)) s broken fun _ t =>
      u.Turned scs st s here t [dest, other] := by
  refine .build fun _ m done => ?_
  cases op with
  | and =>
    obtain ⟨i, middle, branching, returning⟩ := bind_ok.1 done
    obtain ⟨_, rfl⟩ := pure_ok.1 returning
    exact (building.branch plain into inside' branching).turned
  | or =>
    obtain ⟨i, middle, branching, returning⟩ := bind_ok.1 done
    obtain ⟨_, rfl⟩ := pure_ok.1 returning
    have turned := (building.branch plain inside' into branching).turned (s := s)
    exact ⟨turned.reached, turned.last, turned.layout, fun b => (turned.exits b).trans (by simp [or_comm])⟩

theorem isTerminated_ends : Ends (build (do StateT.lift (← get).isTerminated)) s broken fun terminated t =>
      terminated = (s.module.graph.lastOf here).isSome ∧ t = s := by
  obtain ⟨d, hb⟩ := building.skeleton.block_of_mem building.member
  refine .build fun terminated module done => ?_
  obtain ⟨read, rfl⟩ := lift_ok.1 (get_bind_ok.1 done)
  rw [Module.isTerminated, building.point] at read
  dsimp only at read
  rw [Graph.Consistent.terminator? hb] at read
  cases read
  exact ⟨rfl, rfl⟩

end

end Targets

theorem continueUnreachable_ends (building : u.Building scs st s.module here)
    (last : ∃ i, s.module.graph.lastOf here = some i) : Ends continueUnreachable s broken fun _ t =>
      ∃ there, u.Reached scs st s here t there [] ∧ t.module.graph.code there = [] := by
  obtain ⟨i, isLast⟩ := last
  refine (newBlock_ends building).bind ?_
  intro b s1 path
  have stays := path.advances.grows.lastOf path.building.skeleton.coded building.here_above isLast
  refine (setInsertPoint_ends path ⟨i, stays⟩).mono (fun _ bad => bad) ?_
  rintro _ t ⟨ent, blank, _⟩
  exact ⟨b, ent, blank⟩

end Lower
end Midend
