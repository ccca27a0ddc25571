import Midend.Proofs.Meaning.Built
import Midend.Proofs.Meaning.Expression

/-! Lowering an expression gives the code of the expression. -/
namespace Midend
open Builder

def Plan.Seats (plan : Plan) (scope : Scope) (scopes : ScopeTable ValueId) : Prop :=
  ∀ name found, scope.lookup name = some found → found.ty.isInteger →
    ∃ v, scopes.lookup name = some v ∧ plan.cell? found.place = some v ∧ plan.Cell v found.ty

namespace Site
variable {site : Site} {scs scopes' : ScopeTable ValueId} {st state' : FunctionState} {s t : Lowering}
  {here there : ValueId}
variable {pending : List ValueId}

private theorem Inner.entry_lt {m : Module} (inner : site.Inner scs st m here) : site.entry.index < m.graph.values.size :=
  inner.lt_of_mem inner.skeleton.entry_mem

theorem Advances.apart {g t : Graph} (advances : site.Advances g here t there pending)
    (into : site.entry.index < g.values.size) (apart : here ≠ site.entry) : there ≠ site.entry := by
  rcases advances.fresh with rfl | new
  · exact apart
  · rintro rfl
    exact Nat.not_le_of_lt into new

theorem Inner.reached (inner : site.Inner scs st s.module here)
    (path : site.Reached scopes' state' s here t there pending) : site.Inner scopes' state' t.module there :=
  ⟨path.building, path.advances.apart inner.entry_lt inner.apart⟩

theorem Inner.passed (inner : site.Inner scs st s.module here)
    (passed : site.Passed scopes' state' s here t there) : site.Inner scopes' state' t.module there :=
  inner.reached passed.toReached

end Site

namespace Lower
open Site
variable {site : Site} {scs : ScopeTable ValueId} {st : FunctionState} {old : Plan → Prop} {s : Lowering}
  {here : ValueId} {x : Lower ValueId} {giving giving' : Plan → Plan.Giving}
variable {loc : Location} {u : ValueId}

def Follows (site : Site) (scopes : ScopeTable ValueId) (state : FunctionState) (known : Plan → Prop) (s : Lowering)
    (here : ValueId) (x : Lower ValueId) (giving : Plan → Plan.Giving) : Prop :=
  Ends x s (fun _ => True) fun v after => ∃ there, site.Passed scopes state s here after there ∧
    after.module.graph.Plain v ∧ ∀ plan, plan.Includes site after.module.graph → known plan →
      giving plan (s.module.spot here) v (after.module.spot there)

theorem Follows.mono (follows : Follows site scs st old s here x giving)
    (weaker : ∀ c p v q, giving c p v q → giving' c p v q) :
    Follows site scs st old s here x giving' := by
  refine Ends.mono follows (fun _ _ => trivial) ?_
  intro v t ⟨there, passed, plain, gives⟩
  exact ⟨there, passed, plain, fun c incl isKnown => weaker _ _ _ _ (gives c incl isKnown)⟩

theorem Follows.bind {next : ValueId → Lower ValueId} {tl : ValueId → Plan → Plan.Giving}
    (first : Follows site scs st old s here x giving)
    (second : ∀ v t there, site.Passed scs st s here t there → t.module.graph.Plain v →
      Follows site scs st old t there (next v) (tl v)) :
    Follows site scs st old s here (x >>= next) fun c p w q =>
      ∃ v p1, giving c p v p1 ∧ tl v c p1 w q := by
  refine Ends.bind first ?_
  intro v t ⟨there, passed, plain, gives⟩
  refine Ends.mono (second v t there passed plain) (fun _ _ => trivial) ?_
  intro w last ⟨final, passed', plain', gives'⟩
  refine ⟨final, passed.trans passed', plain', fun c incl isKnown => ⟨v, _, ?_, gives' c incl isKnown⟩⟩
  exact gives c (incl.before passed'.advances.grows) isKnown

private theorem build_follows {action : Builder ValueId} (each : ∀ v m, action s.module = .ok (v, m) →
      site.Straight scs st s.module m here ∧ m.graph.Plain v)
    (gives : ∀ v m c, action s.module = .ok (v, m) → c.Includes site m.graph →
      giving c (s.module.spot here) v (m.spot here)) :
    Follows site scs st old s here (build action) giving := by
  refine .build fun v m done => ?_
  obtain ⟨str, plain⟩ := each v m done
  exact ⟨here, str.passed, plain, fun c incl _ => gives v m c done incl⟩

private theorem within_follows (follows : Follows site scs st old (s.within loc) here x giving) :
    Follows site scs st old s here (withContext loc x) giving := by
  refine .between ?_
  refine Ends.mono follows (fun _ _ => trivial) ?_
  intro v t ⟨there, passed, plain, gives⟩
  exact ⟨there, ⟨⟨passed.building.elsewhere _ t.module.report, passed.advances, passed.waiting,
    passed.nodup, passed.loops⟩, passed.opened⟩, plain, gives⟩

private theorem withContext_follows (inner : site.Inner scs st s.module here)
    (follows : ∀ s', site.Inner scs st s'.module here → Follows site scs st old s' here x giving) :
    Follows site scs st old s here (withContext loc x) giving :=
  within_follows (follows (s.within loc) ⟨inner.elsewhere _ s.module.report, inner.apart⟩)

theorem valueOf_follows (old : Plan → Prop) (inner : site.Inner scs st s.module here)
    (plain : s.module.graph.Plain u) :
    Follows site scs st old s here (build (Builder.valueOf u)) fun c p v q => c.Loads p u v q :=
  build_follows (fun _ _ done => upkeep.valueOf inner.toBuilding plain done) fun _ _ _ done incl => inner.loads plain done incl

private theorem toBool_follows (inner : site.Inner scs st s.module here) (plain : s.module.graph.Plain u) :
    Follows site scs st old s here (build (toBool u)) fun c p v q => c.Tests p u v q :=
  build_follows (fun _ _ done => upkeep.toBool inner.toBuilding plain done) fun _ _ _ done incl => inner.tests plain done incl

private theorem unary_follows {op : UnaryOp} (inner : site.Inner scs st s.module here) (plain : s.module.graph.Plain u) :
    Follows site scs st old s here (build (unary op u)) fun c p v q => c.Unary p op u v q :=
  build_follows (fun _ _ done => upkeep.unary inner.toBuilding plain done)
    fun _ _ _ done incl => inner.unary plain done incl

section Pair
variable {l r : ValueId} (inner : site.Inner scs st s.module here) (plainLeft : s.module.graph.Plain l)
  (plainRight : s.module.graph.Plain r)
include inner plainLeft plainRight

private theorem binary_follows {op : Opcode} :
    Follows site scs st old s here (build (Builder.binary op l r)) fun c p v q => c.Binary p op l r v q :=
  build_follows (fun _ _ done => upkeep.binary inner.toBuilding plainLeft plainRight done)
    fun _ _ _ done incl => inner.binary plainLeft plainRight done incl

private theorem icmp_follows {pred : Predicate} :
    Follows site scs st old s here (build (Builder.icmp pred l r)) fun c p v q =>
      c.Compares p pred l r v q :=
  build_follows (fun _ _ done => upkeep.icmp inner.toBuilding plainLeft plainRight done)
    fun _ _ _ done incl => inner.compares plainLeft plainRight done incl

end Pair

private theorem integerOf_follows (inner : site.Inner scs st s.module here) (plain : s.module.graph.Plain u) :
    Follows site scs st old s here (integerOf loc u) fun c p v q => c.Loads p u v q := by
  refine Ends.bind (valueOf_follows old inner plain) ?_
  intro v t ⟨there, passed, plain, loads⟩
  refine Ends.ask.bind ?_
  intro ty _ ⟨_, eq⟩
  subst eq
  split
  · exact .pure ⟨there, passed, plain, loads⟩
  · exact .fail fun _ => trivial

theorem conditionOf_follows (old : Plan → Prop) (inner : site.Inner scs st s.module here)
    (plain : s.module.graph.Plain u) : Follows site scs st old s here (conditionOf loc u) fun c p w q =>
      ∃ v p1, c.Loads p u v p1 ∧ c.Tests p1 v w q := by
  refine (valueOf_follows old inner plain).bind ?_
  intro v t there passed plain
  refine Ends.ask.bind ?_
  intro ty _ ⟨_, eq⟩
  subst eq
  split
  · exact toBool_follows (inner.passed passed) plain
  · exact .fail fun _ => trivial

section Operands
variable {loc : Location} {next : ValueId → Lower ValueId} {tl : ValueId → Plan → Plan.Giving}

theorem Follows.integer (first : Follows site scs st old s here x giving)
    (inner : site.Inner scs st s.module here)
    (second : ∀ v t there, site.Passed scs st s here t there → t.module.graph.Plain v →
      Follows site scs st old t there (next v) (tl v)) :
    Follows site scs st old s here (x >>= fun u => integerOf loc u >>= next) fun c p w q =>
      ∃ v p1, c.Value (giving c) p v p1 ∧ tl v c p1 w q := by
  refine (first.bind fun u t there passed plain => (integerOf_follows (inner.passed passed) plain).bind
    fun v after' there' passed' plain' => second v after' there' (passed.trans passed') plain').mono ?_
  intro c p w q ⟨u, p1, gives, v, p2, loads, more⟩
  exact ⟨v, p2, ⟨u, p1, gives, loads⟩, more⟩

theorem Follows.condition (first : Follows site scs st old s here x giving)
    (inner : site.Inner scs st s.module here)
    (second : ∀ v t there, site.Passed scs st s here t there → t.module.graph.Plain v →
      Follows site scs st old t there (next v) (tl v)) :
    Follows site scs st old s here (x >>= fun u => conditionOf loc u >>= next) fun c p w q =>
      ∃ v p1, c.Condition (giving c) p v p1 ∧ tl v c p1 w q := by
  refine (first.bind fun u t there passed plain => (conditionOf_follows old (inner.passed passed) plain).bind
    fun v after' there' passed' plain' => second v after' there' (passed.trans passed') plain').mono ?_
  intro c p w q ⟨u, p1, gives, v, p2, ⟨loaded, p3, loads, tests⟩, more⟩
  exact ⟨v, p2, ⟨loaded, p3, ⟨u, p1, gives, loads⟩, tests⟩, more⟩

end Operands

section Logic
variable {broken : Lowering → Prop} {op : LogicOp} {leftAt rightAt : Location}
variable {n : Option String} {slot lhs : ValueId} {right : Lower ValueId} {rights : Plan → Plan.Giving}

theorem newBlock_waits (made : site.Building scs st s.module here) :
    Ends (newBlock n) s broken fun b t => site.Reached scs st s here t here [b] ∧
      t.module.spot here = (s.module.spot here).grow ∧
      t.module.graph.lastOf here = s.module.graph.lastOf here := by
  have current : Ends currentFunction s broken fun f t => f = site.func ∧ t = s := by
    refine .get ?_
    rw [made.current]
    exact .pure ⟨made.function, rfl⟩
  refine current.bind ?_
  rintro _ _ ⟨rfl, rfl⟩
  refine (createBlock_ends made).mono (fun _ bad => bad) ?_
  rintro b t ⟨path, add⟩
  refine ⟨path, ?_, add.lastOf here⟩
  show Spot.mk _ _ _ = Spot.mk _ _ _
  rw [add.code, add.size]
  rfl

section
variable (inner : site.Inner scs st s.module here)
include inner

private theorem alloca_follows {ty : Ty} :
    Follows site scs st old s here (build (Builder.alloca ty n)) fun c p slot q =>
      c.Slotted slot ty n ∧ q = p.grow :=
  build_follows (fun _ _ done => inner.alloca done) fun _ _ _ done incl =>
    ⟨inner.toBuilding.slotted done incl, inner.spot_alloca done⟩

private theorem store_follows {val : ValueId} (plain : s.module.graph.Plain val) (plainSlot : s.module.graph.Plain slot) :
    Ends (build (Builder.store val slot)) s broken fun _ t => site.Passed scs st s here t here ∧
      ∀ c : Plan, c.Includes site t.module.graph →
        c.Stores (s.module.spot here) val slot (t.module.spot here) :=
  .build fun _ _ done => ⟨(upkeep.store inner.toBuilding plain plainSlot done).passed, fun _ incl => inner.stores done incl⟩

theorem jump_follows {dest : ValueId} (into : dest ∈ s.module.graph.layout site.func) :
    Ends (build (Builder.jump dest)) s broken fun _ t =>
      (site.Reached scs st s here t here [] ∧ ∃ i, t.module.graph.lastOf here = some i) ∧
        ∀ c : Plan, c.Includes site t.module.graph → c.Jumps (s.module.spot here) dest := by
  refine .build fun _ m done => ?_
  have ended := inner.jump into done
  exact ⟨⟨ended.turned.reached, ended.closed⟩, fun _ incl => inner.jumps into done incl⟩

theorem branch_follows {cond thenBlock elseBlock : ValueId}
    (plain : s.module.graph.Plain cond) (thenInside : thenBlock ∈ s.module.graph.layout site.func)
    (elseInside : elseBlock ∈ s.module.graph.layout site.func) :
    Ends (build (Builder.branch cond thenBlock elseBlock)) s broken fun _ t =>
      (site.Reached scs st s here t here [] ∧ ∃ i, t.module.graph.lastOf here = some i) ∧
        ∀ c : Plan, c.Includes site t.module.graph →
          c.Branches (s.module.spot here) cond thenBlock elseBlock := by
  refine .build fun _ m done => ?_
  have ended := inner.branch plain thenInside elseInside done
  exact ⟨⟨ended.turned.reached, ended.closed⟩, fun _ incl => inner.branches thenInside elseInside done incl⟩

private theorem logicBranch_follows {rhsBlock join : ValueId}
    (plain : s.module.graph.Plain lhs) (rhsInside : rhsBlock ∈ s.module.graph.layout site.func)
    (endInside : join ∈ s.module.graph.layout site.func) :
    Ends (build (logicBranch op lhs rhsBlock join)) s broken fun _ t =>
      (site.Reached scs st s here t here [] ∧ ∃ i, t.module.graph.lastOf here = some i) ∧
        ∀ c : Plan, c.Includes site t.module.graph →
          c.Decides (s.module.spot here) op lhs rhsBlock join := by
  refine .build fun _ m done => ?_
  cases op with
  | and =>
    obtain ⟨i, mid, branching, returning⟩ := bind_ok.1 done
    obtain ⟨_, rfl⟩ := pure_ok.1 returning
    have ended := inner.branch plain rhsInside endInside branching
    exact ⟨⟨ended.turned.reached, ended.closed⟩, fun _ incl => inner.branches rhsInside endInside branching incl⟩
  | or =>
    obtain ⟨i, mid, branching, returning⟩ := bind_ok.1 done
    obtain ⟨_, rfl⟩ := pure_ok.1 returning
    have ended := inner.branch plain endInside rhsInside branching
    exact ⟨⟨ended.turned.reached, ended.closed⟩, fun _ incl => inner.branches endInside rhsInside branching incl⟩

end

theorem spot_of_blank {m : Module} {b : ValueId} (blank : m.graph.code b = []) :
    m.spot b = ⟨b, 0, m.graph.values.size⟩ := by
  rw [Module.spot, blank]
  rfl

private theorem load_follows (old : Plan → Prop) (inner : site.Inner scs st s.module here)
    (plain : s.module.graph.Plain slot) :
    Follows site scs st old s here (build (Builder.load slot)) fun c p v q =>
      ∃ ty pointee, c.graph.ty? slot = some ty ∧ ty.pointee? = some pointee ∧
        c.Puts p .load pointee [slot] .none v q := by
  refine build_follows (fun _ _ done => upkeep.load inner.toBuilding plain done) fun _ _ _ done incl => ?_
  have within := incl.before (upkeep.load inner.toBuilding plain done).1.advances.grows
  obtain ⟨ty, pointee, hit, points, run⟩ := load_ok done
  exact ⟨ty, pointee, within.ty hit, points, inner.puts run incl⟩

private theorem logicRest_follows
    (follows : ∀ {s here}, site.Inner scs st s.module here → Follows site scs st old s here right rights)
    (inner : site.Inner scs st s.module here) (plain : s.module.graph.Plain lhs)
    (plainSlot : s.module.graph.Plain slot) :
    Follows site scs st old s here (do
      let _ ← build (Builder.store lhs slot)
      let rhsBlock ← newBlock (some (logicNames op).1)
      let join ← newBlock (some (logicNames op).2)
      build (logicBranch op lhs rhsBlock join)
      build (Builder.setInsertPoint rhsBlock)
      let rhs ← conditionOf rightAt (← right)
      let _ ← build (Builder.store rhs slot)
      let _ ← build (Builder.jump join)
      build (Builder.setInsertPoint join)
      build (Builder.load slot)) fun c p v q =>
        ∃ rhs rhsBlock join p1 p2 p3 n k ty pointee, c.Stores p lhs slot p1 ∧
          c.Decides p1 op lhs rhsBlock join ∧ p1.size ≤ n ∧
          c.Condition (rights c) ⟨rhsBlock, 0, n⟩ rhs p2 ∧ c.Stores p2 rhs slot p3 ∧
          c.Jumps p3 join ∧ p3.size ≤ k ∧ c.graph.ty? slot = some ty ∧ ty.pointee? = some pointee ∧
          c.Puts ⟨join, 0, k⟩ .load pointee [slot] .none v q := by
  refine (store_follows inner plain plainSlot).bind ?_
  intro _ s1 ⟨passed1, stores1⟩
  have inner1 := inner.passed passed1
  refine (newBlock_waits inner1.toBuilding).bind ?_
  intro rhsBlock s2 ⟨reached2, spot2, _⟩
  refine (newBlock_waits reached2.building).bind ?_
  intro join s3 ⟨reached3, spot3, _⟩
  have bs := (passed1.toReached.trans reached2).trans reached3
  have inner3 := inner.reached bs
  refine (logicBranch_follows inner3 (bs.advances.grows.plain plain) (bs.waiting rhsBlock (by simp)).inside
    (bs.waiting join (by simp)).inside).bind ?_
  intro _ s4 ⟨⟨reached4, last4⟩, decides4⟩
  refine (setInsertPoint_ends (bs.trans reached4) last4).bind ?_
  intro _ s5 ⟨reached5, blank5, same5⟩
  have inner5 := inner.reached reached5
  refine Ends.bind (follows inner5) ?_
  intro val s6 ⟨here6, passed6, plainValue, gives6⟩
  have inner6 := inner5.passed passed6
  refine Ends.bind (conditionOf_follows old inner6 plainValue) ?_
  intro rhs s7 ⟨here7, passed7, plainRhs, gives7⟩
  have inner7 := inner6.passed passed7
  have pre := (reached5.trans passed6.toReached).trans passed7.toReached
  refine (store_follows inner7 plainRhs (pre.advances.grows.plain plainSlot)).bind ?_
  intro _ s8 ⟨passed8, stores8⟩
  have full := pre.trans passed8.toReached
  refine (jump_follows (inner7.passed passed8) (full.waiting join (by simp)).inside).bind ?_
  intro _ s9 ⟨⟨reached9, last9⟩, jumps9⟩
  refine (setInsertPoint_ends (full.trans reached9) last9).bind ?_
  intro _ s10 ⟨reached10, blank10, same10⟩
  have inner10 := inner.reached reached10
  refine Ends.mono (load_follows old inner10 (reached10.advances.grows.plain plainSlot)) (fun _ _ => trivial) ?_
  intro v t ⟨there, passed, plainResult, gives⟩
  refine ⟨there, ⟨reached10.trans passed.toReached, fun _ => passed.opened ?_⟩, plainResult, ?_⟩
  · rw [Graph.lastOf, blank10]
    rfl
  intro c incl isKnown
  obtain ⟨ty, pointee, isTy, points, put⟩ := gives c incl isKnown
  have includes9 : c.Includes site s9.module.graph := same10 ▸ incl.before passed.advances.grows
  have includes8 := includes9.before reached9.advances.grows
  have includes7 := includes8.before passed8.advances.grows
  have includes6 := includes7.before passed7.advances.grows
  have includes4 : c.Includes site s4.module.graph := same5 ▸ includes6.before passed6.advances.grows
  have includes1 := (includes4.before reached4.advances.grows).before
    (reached2.advances.grows.trans reached3.advances.grows)
  obtain ⟨loaded, p, loads, tests⟩ := gives7 c includes7 isKnown
  have cs := gives6 c includes6 isKnown
  have decides := decides4 c includes4
  rw [spot_of_blank blank5] at cs
  rw [spot_of_blank blank10] at put
  rw [spot3, spot2] at decides
  refine ⟨rhs, rhsBlock, join, _, _, _, _, _, ty, pointee, stores1 c includes1, decides, ?_,
    ⟨loaded, p, ⟨val, _, cs, loads⟩, tests⟩, stores8 c includes8, jumps9 c includes9, ?_, isTy, points, put⟩
  · rw [same5]
    exact ((reached2.advances.grows.trans reached3.advances.grows).trans reached4.advances.grows).size
  · rw [same10]
    exact reached9.advances.grows.size

private theorem logic_follows {left : Lower ValueId} {lefts : Plan → Plan.Giving}
    (followsLeft : ∀ {s here}, site.Inner scs st s.module here → Follows site scs st old s here left lefts)
    (followsRight : ∀ {s here}, site.Inner scs st s.module here →
      Follows site scs st old s here right rights) (inner : site.Inner scs st s.module here) :
    Follows site scs st old s here (do
      let slot ← build (Builder.alloca .bool none)
      let lhs ← conditionOf leftAt (← left)
      let _ ← build (Builder.store lhs slot)
      let rhsBlock ← newBlock (some (logicNames op).1)
      let join ← newBlock (some (logicNames op).2)
      build (logicBranch op lhs rhsBlock join)
      build (Builder.setInsertPoint rhsBlock)
      let rhs ← conditionOf rightAt (← right)
      let _ ← build (Builder.store rhs slot)
      let _ ← build (Builder.jump join)
      build (Builder.setInsertPoint join)
      build (Builder.load slot)) fun c => c.Connects op (lefts c) (rights c) := by
  refine ((alloca_follows inner).bind fun slot s1 here1 passed1 plainSlot =>
    (followsLeft (inner.passed passed1)).condition (inner.passed passed1) fun lhs s2 here2 passed2 plain =>
      logicRest_follows followsRight ((inner.passed passed1).passed passed2) plain (passed2.plain plainSlot)).mono ?_
  intro c p v q ⟨slot, p1, ⟨slotted, grown⟩, lhs, p2, cs, rhs, rhsBlock, join, p3, p4, p5, n, k, ty, pointee,
    stores, decides, lt, codeRight, stores', jumps, bound', isTy, points, load⟩
  subst grown
  cases slotted.ty.symm.trans isTy
  cases points
  exact ⟨slot, lhs, rhs, rhsBlock, join, p2, p3, p4, p5, n, k, slotted, cs, stores, decides, lt, codeRight,
    stores', jumps, bound', load⟩

end Logic

section Assignments
variable {slot : ValueId}

private theorem targetOf_address : Ends (targetOf loc slot) s (fun _ => True) fun v t => v = slot ∧ t = s ∧
      ∃ k, s.module.graph.kind? slot = some k ∧ k.isAddress := by
  refine Ends.ask.bind ?_
  intro k _ ⟨hit, eq⟩
  subst eq
  split
  next isAddress => exact .pure ⟨rfl, rfl, k, Graph.kind_eq_ok.1 hit, isAddress⟩
  next => exact .fail fun _ => trivial

private theorem checkIntegerSlot_follows (follows : Follows site scs st old s here x giving) :
    Follows site scs st old s here (do checkIntegerSlot loc slot; x) giving := by
  have checked : Ends (checkIntegerSlot loc slot) s (fun _ => True) fun _ t => t = s := by
    refine Ends.ask.bind ?_
    rintro ty _ ⟨_, rfl⟩
    dsimp only
    split
    · exact .pure rfl
    · exact .fail fun _ => trivial
  refine checked.bind ?_
  rintro _ _ rfl
  exact follows

theorem assign_follows (inner : site.Inner scs st s.module here) (plainSlot : s.module.graph.Plain slot)
    (plain : s.module.graph.Plain u) :
    Follows site scs st old s here (build (Builder.assign slot u)) fun c p v q => c.Assigns p slot u v q :=
  build_follows (fun _ _ done => upkeep.assign inner.toBuilding plainSlot plain done)
    fun _ _ _ done incl => inner.assigns plainSlot plain done incl

theorem Follows.target {next : ValueId → Lower ValueId} {tl : ValueId → Plan → Plan.Giving}
    (first : Follows site scs st old s here x giving)
    (second : ∀ slot t there, site.Passed scs st s here t there → t.module.graph.Plain slot →
      Follows site scs st old t there (next slot) (tl slot)) :
    Follows site scs st old s here (x >>= fun u => targetOf loc u >>= next) fun c p w q =>
      ∃ slot k p1, giving c p slot p1 ∧ c.graph.kind? slot = some k ∧ k.isAddress ∧
        tl slot c p1 w q := by
  refine Ends.bind first ?_
  intro slot s1 ⟨here1, passed1, plainSlot, gives1⟩
  refine targetOf_address.bind ?_
  intro _ _ ⟨eq, same', k, hit, isAddress⟩
  subst eq same'
  refine Ends.mono (second _ _ here1 passed1 plainSlot) (fun _ _ => trivial) ?_
  intro w t ⟨there, passed, plain, gives⟩
  refine ⟨there, passed1.trans passed, plain, fun c incl isKnown => ?_⟩
  have includes1 := incl.before passed.advances.grows
  exact ⟨_, k, _, gives1 c includes1 isKnown, includes1.kind plainSlot hit, isAddress, gives c incl isKnown⟩

private theorem combine_follows {op : Opcode} (first : Follows site scs st old s here x giving)
    (inner : site.Inner scs st s.module here) (plainSlot : s.module.graph.Plain slot) :
    Follows site scs st old s here (do
      let val ← integerOf loc (← x)
      let res ← build (Builder.binary op slot val)
      build (Builder.assign slot res)) fun c p v q =>
        ∃ u p1, c.Value (giving c) p u p1 ∧ ∃ x p2, c.Binary p1 op slot u x p2 ∧ c.Assigns p2 slot x v q := by
  refine first.integer inner fun u s1 here1 passed1 plain => ?_
  have inner1 := inner.passed passed1
  refine (binary_follows inner1 (passed1.plain plainSlot) plain).bind fun x s2 here2 passed2 plainX => ?_
  exact assign_follows (inner1.passed passed2) (passed2.plain (passed1.plain plainSlot)) plainX

end Assignments

mutual
/-- Lowering an expression makes code that computes it. -/
theorem expr_follows (sc : Scope) (e : Expr) {s : Lowering} {here : ValueId}
    (inner : site.Inner scs st s.module here) :
    Follows site scs st (·.Seats sc scs) s here (expr e) fun c => c.Computes sc e := by
  cases e with
  | int val note =>
    refine withContext_follows inner fun s inner => ?_
    exact build_follows (fun _ _ done => inner.added done rfl) fun _ _ _ done incl => inner.constant done incl
  | char val note =>
    refine withContext_follows inner fun s inner => ?_
    exact build_follows (fun _ _ done => inner.added done rfl) fun _ _ _ done incl => inner.constant done incl
  | string val note =>
    refine withContext_follows inner fun s inner => ?_
    refine build_follows (fun _ _ done => inner.toBuilding.added done rfl) fun _ _ _ done incl => ?_
    obtain ⟨k, _, fresh, next⟩ := inner.made done rfl incl
    exact ⟨k, fresh, next⟩
  | ident n note =>
    refine withContext_follows inner fun s inner => .get ?_
    split
    next slot hit =>
      refine .pure ⟨here, .refl inner.toBuilding, inner.symbols.lookup hit, fun c _ seats => ⟨rfl, ?_⟩⟩
      intro var isVar integer
      obtain ⟨v, lt, isCell, cell⟩ := seats n var isVar integer
      rw [inner.names] at hit
      cases hit.symm.trans lt
      exact ⟨isCell, cell⟩
    next => exact .fail fun _ => trivial
  | unary op arg note =>
    refine withContext_follows inner fun s inner => ?_
    refine (expr_follows sc arg inner).integer inner ?_
    intro u t there passed plain
    exact unary_follows (inner.passed passed) plain
  | binary op left right note =>
    refine withContext_follows inner fun s inner => ?_
    cases op with
    | assign base =>
      cases base with
      | none =>
        exact (expr_follows sc left inner).target fun slot s1 here1 passed1 plainSlot =>
          (expr_follows sc right (inner.passed passed1)).bind fun u s2 here2 passed2 plain =>
            assign_follows ((inner.passed passed1).passed passed2) (passed2.plain plainSlot) plain
      | some op =>
        refine ((expr_follows sc left inner).target fun slot s1 here1 passed1 plainSlot => checkIntegerSlot_follows
          (combine_follows (expr_follows sc right (inner.passed passed1)) (inner.passed passed1) plainSlot)).mono ?_
        intro c p v q ⟨slot, k, p1, dest, hit, isAddress, u, p2, cs, x, p3, computes, assigns⟩
        exact ⟨slot, k, p1, dest, hit, isAddress, u, x, p2, p3, cs, computes, assigns⟩
    | logic op => exact logic_follows (expr_follows sc left) (expr_follows sc right) inner
    | compare op =>
      refine ((expr_follows sc left inner).integer inner fun l s1 here1 passed1 plainLeft =>
        (expr_follows sc right (inner.passed passed1)).integer (inner.passed passed1)
          fun r s2 here2 passed2 plainRight => icmp_follows ((inner.passed passed1).passed passed2)
            (passed2.plain plainLeft) plainRight).mono ?_
      intro c p v q ⟨l, p1, codeLeft, r, p2, codeRight, compares⟩
      exact ⟨l, r, p1, p2, codeLeft, codeRight, compares⟩
    | arith op =>
      refine ((expr_follows sc left inner).integer inner fun l s1 here1 passed1 plainLeft =>
        (expr_follows sc right (inner.passed passed1)).integer (inner.passed passed1)
          fun r s2 here2 passed2 plainRight => binary_follows ((inner.passed passed1).passed passed2)
            (passed2.plain plainLeft) plainRight).mono ?_
      intro c p v q ⟨l, p1, codeLeft, r, p2, codeRight, computes⟩
      exact ⟨l, r, p1, p2, codeLeft, codeRight, computes⟩
  | call function arguments note =>
    refine withContext_follows inner fun s inner => .get ?_
    split
    next => exact .fail fun _ => trivial
    next callee hit =>
      refine (exprs_follows sc arguments inner).bind ?_
      intro us s1 ⟨here1, passed1, plain, gives1⟩
      have inner1 := inner.passed passed1
      have plainCallee := passed1.plain (inner.callable _ (List.mem_of_find?_eq_some hit))
      refine .build fun v m done => ?_
      obtain ⟨str, plainV⟩ := upkeep.call inner1.toBuilding plainCallee plain done
      refine ⟨here1, passed1.trans str.passed, plainV, fun c incl seats => ?_⟩
      have includes1 := incl.before str.advances.grows
      have old := (includes1.before passed1.advances.grows).callee inner.functions inner.callable function
      exact ⟨callee, us, _, old.trans hit, gives1 c includes1 seats, inner1.calls plainCallee plain done incl⟩
termination_by structural e

theorem exprs_follows (sc : Scope) (es : List Expr) {s : Lowering} {here : ValueId}
    (inner : site.Inner scs st s.module here) :
    Ends (exprs es) s (fun _ => True) fun us t => ∃ there, site.Passed scs st s here t there ∧
      (∀ u ∈ us, t.module.graph.Plain u) ∧ ∀ c : Plan, c.Includes site t.module.graph →
        c.Seats sc scs → c.ComputesAll sc es (s.module.spot here) us (t.module.spot there) := by
  cases es with
  | nil => exact .pure ⟨here, .refl inner.toBuilding, by simp, fun _ _ _ => ⟨rfl, rfl⟩⟩
  | cons e tl =>
    refine Ends.bind (expr_follows sc e inner) ?_
    intro u s1 ⟨here1, passed1, plain, gives⟩
    refine (exprs_follows sc tl (inner.passed passed1)).bind ?_
    intro us t ⟨there, passed2, plains, more⟩
    refine .pure ⟨there, passed1.trans passed2, ?_, fun c incl seats => ?_⟩
    · simpa using ⟨passed2.plain plain, plains⟩
    · exact ⟨u, us, _, gives c (incl.before passed2.advances.grows) seats, more c incl seats, rfl⟩
termination_by structural es
end

end Lower
end Midend
