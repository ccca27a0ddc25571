import Midend.Proofs.Lower.Sound

/-! Lowering refers only to what is there. The value of an expression can be used where
lowering goes on, also if its code spreads over several blocks: the blocks of an operator that
skips its right operand ask for whatever was at hand before it. Blocks of statements ask for
nothing, since what outlives a statement is in a stack slot. -/
namespace Midend
open List Builder

namespace Site
variable {u : Site} {avail avail' avail'' : ValueId → ValueId → Prop} {st : FunctionState}
  {s middle t : Lowering} {here mid there : ValueId}

structure Along (site : Site) (state : FunctionState) (avail : ValueId → ValueId → Prop) (s : Lowering)
    (here : ValueId) (avail' : ValueId → ValueId → Prop) (after : Lowering) (there : ValueId) : Prop
    extends site.Onward state avail s.module here avail' after.module there where
  loops : after.loops = s.loops

theorem Along.refl (sound : u.Sound avail st s.module here) : u.Along st avail s here avail s here :=
  ⟨.refl sound, rfl⟩

theorem Along.trans (first : u.Along st avail s here avail' middle mid)
    (second : u.Along st avail' middle mid avail'' t there) :
    u.Along st avail s here avail'' t there :=
  ⟨first.toOnward.trans second.toOnward, second.loops.trans first.loops⟩

structure Ready (site : Site) (avail : ValueId → ValueId → Prop) (g : Graph) (block : ValueId) : Prop where
  inside : block ∈ g.layout site.func
  blank : ∀ v, ¬ avail block v

theorem Ready.later {g t : Graph} {b : ValueId} (ready : u.Ready avail g b)
    (skel : u.base.Skeleton g u.func u.entry) (later : u.Later avail g avail' t) :
    u.Ready avail' t b := by
  refine ⟨later.layout ready.inside, fun v known => ready.blank v ((later.agree b v ?_).1 known)⟩
  exact Graph.lt_of_isBlock ((skel.laid.blocks b).1 ready.inside).2

structure Referring (site : Site) (avail : ValueId → ValueId → Prop) (state : FunctionState) (s : Lowering)
    (here : ValueId) : Prop extends site.Sound avail state s.module here where
  loops : ∀ targets ∈ s.loops, site.Ready avail s.module.graph targets.continueBlock ∧
    site.Ready avail s.module.graph targets.breakBlock
  nested : 0 < s.module.symbols.inner.length
  leaves : ∀ exit ∈ state.exit, site.Ready avail s.module.graph exit

structure Went (site : Site) (state : FunctionState) (avail : ValueId → ValueId → Prop) (s : Lowering)
    (avail' : ValueId → ValueId → Prop) (after : Lowering) (there : ValueId) : Prop
    extends site.Later avail s.module.graph avail' after.module.graph where
  sound : site.Sound avail' state after.module there
  loops : after.loops = s.loops
  depth : after.module.symbols.inner.length = s.module.symbols.inner.length

theorem Along.went (along : u.Along st avail s here avail' t there) :
    u.Went st avail s avail' t there :=
  ⟨along.toLater, along.sound, along.loops, by rw [along.symbols]⟩

theorem Onward.went {module : Module} (onward : u.Onward st avail s.module here avail' module there) :
    u.Went st avail s avail' { s with module } there :=
  ⟨onward.toLater, onward.sound, rfl, congrArg (·.inner.length) onward.symbols⟩

theorem Went.trans (first : u.Went st avail s avail' middle mid)
    (second : u.Went st avail' middle avail'' t there) : u.Went st avail s avail'' t there :=
  ⟨first.toLater.trans second.toLater, second.sound, second.loops.trans first.loops, second.depth.trans first.depth⟩

theorem Referring.went (referring : u.Referring avail st s here)
    (went : u.Went st avail s avail' t there) : u.Referring avail' st t there where
  toSound := went.sound
  loops := by
    intro dests mem
    rw [went.loops] at mem
    have ready := referring.loops dests mem
    exact ⟨ready.1.later referring.skeleton went.toLater, ready.2.later referring.skeleton went.toLater⟩
  nested := went.depth ▸ referring.nested
  leaves := fun exit isExit => (referring.leaves exit isExit).later referring.skeleton went.toLater

end Site

namespace Lower
open Site
variable {u : Site} {avail avail' : ValueId → ValueId → Prop} {st : FunctionState}
  {s : Lowering} {here : ValueId} {broken : Lowering → Prop}
variable {slot val dest : ValueId} {n : Option String}

theorem store_along (sound : u.Sound avail st s.module here) (held : u.Held avail s.module.graph here val)
    (heldSlot : u.Held avail s.module.graph here slot) :
    Ends (build (Builder.store val slot)) s broken fun _ t => u.Along st avail s here avail t here :=
  .build fun _ _ done => ⟨(sound_upkeep u avail st here).store sound held heldSlot done, rfl⟩

theorem alloca_along {ty : Ty} (sound : u.Sound avail st s.module here) :
    Ends (build (Builder.alloca ty n)) s broken fun slot t =>
      u.Along st avail s here avail t here ∧ u.Known t.module.graph slot :=
  .build fun _ _ done => ⟨⟨(sound.alloca done).1, rfl⟩, (sound.alloca done).2⟩

structure Made (site : Site) (state : FunctionState) (avail : ValueId → ValueId → Prop) (s : Lowering)
    (here : ValueId) (wanted : ValueId → Prop) (after : Lowering) (block : ValueId) : Prop
    extends site.Along state avail s here (covering avail block wanted) after here where
  inside : block ∈ after.module.graph.layout site.func
  new : s.module.graph.values.size ≤ block.index
  code : after.module.graph.code here = s.module.graph.code here

theorem createBlock_made (wanted : ValueId → Prop) (sound : u.Sound avail st s.module here)
    (inner : ∀ v, wanted v → s.module.graph.Result v) :
    Ends (build (Builder.createBlock u.func n)) s broken fun b t =>
      Made u st avail s here wanted t b := by
  refine .build fun b module done => ?_
  obtain ⟨onward, into, new, _, code⟩ := sound.createBlock inner done
  exact ⟨⟨onward, rfl⟩, into, new, code⟩

private theorem newBlock_asking (wanted : ValueId → Prop) (sound : u.Sound avail st s.module here)
    (inner : ∀ v, wanted v → s.module.graph.Result v) :
    Ends (newBlock n) s broken fun b t => Made u st avail s here wanted t b := by
  have current : Ends currentFunction s broken fun f t => f = u.func ∧ t = s := by
    refine .get ?_
    rw [sound.current]
    exact .pure ⟨sound.function, rfl⟩
  refine current.bind ?_
  intro _ _ ⟨isFunc, eq⟩
  subst isFunc eq
  exact createBlock_made wanted sound inner

theorem Made.ready {t : Lowering} {b : ValueId}
    (made : Made u st avail s here (fun _ => False) t b) :
    u.Ready (covering avail b fun _ => False) t.module.graph b :=
  ⟨made.inside, by simp [covering]⟩

section Logic
variable {t : Lowering} {rhsBlock endBlock join : ValueId}
variable {lhs : ValueId} {op : LogicOp} {final : ValueId → Lowering → Prop}

def Near (avail : ValueId → ValueId → Prop) (g : Graph) (here v : ValueId) : Prop :=
  g.Result v ∧ (avail here v ∨ v ∈ g.code here)

structure Forked (site : Site) (state : FunctionState) (avail : ValueId → ValueId → Prop) (s : Lowering)
    (here : ValueId) (avail' : ValueId → ValueId → Prop) (after : Lowering) (rhsBlock endBlock : ValueId) :
    Prop extends site.Later avail s.module.graph avail' after.module.graph where
  symbols : after.module.symbols = s.module.symbols
  loops : after.loops = s.loops
  skeleton : site.base.Skeleton s.module.graph site.func site.entry
  sound : site.Sound avail' state after.module rhsBlock
  leads : ∀ v, Near avail s.module.graph here v →
    site.Leads avail' after.module.graph v s.module.graph.values.size after.module.graph.values.size
  inside : endBlock ∈ after.module.graph.layout site.func
  right : ∀ v, avail' rhsBlock v ↔ Near avail s.module.graph here v
  last : ∀ v, avail' endBlock v ↔ Near avail s.module.graph here v

theorem Forked.went (forked : Forked u st avail s here avail' t rhsBlock join) :
    u.Went st avail s avail' t rhsBlock :=
  ⟨forked.toLater, forked.sound, forked.loops, by rw [forked.symbols]⟩

private theorem logicBranch_along (sound : u.Sound avail st s.module here)
    (held : u.Held avail s.module.graph here lhs) (rhsInside : rhsBlock ∈ s.module.graph.layout u.func)
    (endInside : join ∈ s.module.graph.layout u.func)
    (rhsPasses : ∀ v, avail rhsBlock v → avail here v ∨ v ∈ s.module.graph.code here)
    (endPasses : ∀ v, avail join v → avail here v ∨ v ∈ s.module.graph.code here) :
    Ends (build (logicBranch op lhs rhsBlock join)) s broken fun _ t =>
      u.Along st avail s here avail t here := by
  refine .build fun _ module done => ?_
  cases op with
  | and =>
    obtain ⟨i, middle, branching, returning⟩ := bind_ok.1 done
    obtain ⟨_, rfl⟩ := pure_ok.1 returning
    exact ⟨sound.branch held rhsInside endInside rhsPasses endPasses branching, rfl⟩
  | or =>
    obtain ⟨i, middle, branching, returning⟩ := bind_ok.1 done
    obtain ⟨_, rfl⟩ := pure_ok.1 returning
    exact ⟨sound.branch held endInside rhsInside endPasses rhsPasses branching, rfl⟩

private theorem fork_ends {next : ValueId → Lower ValueId} (sound : u.Sound avail st s.module here)
    (held : u.Held avail s.module.graph here lhs)
    (rest : ∀ avail' t rhsBlock join, Forked u st avail s here avail' t rhsBlock join →
      Ends (next join) t broken final) :
    Ends (do
      let rhsBlock ← newBlock (some (logicNames op).1)
      let join ← newBlock (some (logicNames op).2)
      build (logicBranch op lhs rhsBlock join)
      build (Builder.setInsertPoint rhsBlock)
      next join) s broken final := by
  refine (newBlock_asking (Near avail s.module.graph here) sound fun v near => near.1).bind ?_
  intro rhsBlock s1 made1
  refine (newBlock_asking (Near avail s.module.graph here) made1.sound fun v near =>
    made1.grows.result near.1).bind ?_
  intro join s2 made2
  have later := made1.toLater.trans made2.toLater
  have apart : rhsBlock ≠ join := by
    have bound := made1.sound.toBuilding.lt_of_mem made1.inside
    have new := made2.new
    rintro rfl
    omega
  have right : ∀ v, covering (covering avail rhsBlock (Near avail s.module.graph here)) join
      (Near avail s.module.graph here) rhsBlock v ↔ Near avail s.module.graph here v := by
    simp [covering, apart]
  have last : ∀ v, covering (covering avail rhsBlock (Near avail s.module.graph here)) join
      (Near avail s.module.graph here) join v ↔ Near avail s.module.graph here v := by
    simp [covering]
  have passes : ∀ v, Near avail s.module.graph here v →
      covering (covering avail rhsBlock (Near avail s.module.graph here)) join
        (Near avail s.module.graph here) here v ∨ v ∈ s2.module.graph.code here := by
    intro v near
    rw [made2.code, made1.code]
    exact near.2.imp_left (later.agree here v sound.here_lt).2
  refine (logicBranch_along made2.sound (made2.held (made1.held held)) (made2.layout made1.inside) made2.inside
    (fun v asked => passes v ((right v).1 asked)) fun v asked => passes v ((last v).1 asked)).bind ?_
  intro _ s3 along3
  have entered : Ends (build (Builder.setInsertPoint rhsBlock)) s3 broken fun _ t =>
      Forked u st avail s here (covering (covering avail rhsBlock (Near avail s.module.graph here)) join
        (Near avail s.module.graph here)) t rhsBlock join := by
    refine .build fun _ module done => ?_
    obtain ⟨sound4, eq⟩ := along3.sound.entered (along3.layout (made2.layout made1.inside)) done
    have way := (made1.toAlong.trans made2.toAlong).trans along3
    obtain ⟨_, rfl⟩ := setInsertPoint_ok done
    exact ⟨way.toLater, way.symbols, way.loops, sound.skeleton, sound4, fun v near => way.leads v near.1 near.2.symm,
      along3.layout made2.inside, right, last⟩
  refine entered.bind ?_
  intro _ s4 forked
  exact rest _ s4 rhsBlock join forked

theorem Forked.joined {last : Lowering} {there : ValueId} {next : Lower ValueId} {avail'' : ValueId → ValueId → Prop}
    (forked : Forked u st avail s here avail' t rhsBlock join)
    (along : u.Along st avail' t rhsBlock avail'' last there)
    (rest : ∀ final', u.Along st avail s here avail'' final' join → Ends next final' broken final) :
    Ends (do
      let _ ← build (Builder.jump join)
      build (Builder.setInsertPoint join)
      next) last broken final := by
  have asks : ∀ v, avail'' join v ↔ Near avail s.module.graph here v := fun v =>
    (along.agree join v (forked.sound.toBuilding.lt_of_mem forked.inside)).trans (forked.last v)
  have passes : ∀ v, avail'' join v → avail'' there v ∨ v ∈ last.module.graph.code there := by
    intro v asked
    have near := (asks v).1 asked
    exact (along.carried v (forked.grows.result near.1) (.inr ((forked.right v).2 near))).symm
  have jumped : Ends (build (Builder.jump join)) last broken fun _ t =>
      u.Along st avail'' last there avail'' t there :=
    .build fun _ _ done => ⟨along.sound.jump (along.layout forked.inside) passes done, rfl⟩
  refine jumped.bind ?_
  intro _ s1 along1
  have entered : Ends (build (Builder.setInsertPoint join)) s1 broken fun _ t =>
      u.Along st avail s here avail'' t join := by
    refine .build fun _ module done => ?_
    obtain ⟨sound2, eq⟩ := along1.sound.entered (along1.layout (along.layout forked.inside)) done
    have way := along.trans along1
    obtain ⟨_, rfl⟩ := setInsertPoint_ok done
    refine ⟨⟨forked.toLater.trans way.toLater, way.symbols.trans forked.symbols, forked.skeleton, sound2, ?_, ?_⟩,
      way.loops.trans forked.loops⟩
    · intro v res known
      exact .inr ((asks v).2 ⟨res, known.symm⟩)
    · intro v res known
      have near : Near avail s.module.graph here v := ⟨res, known.symm⟩
      have before := (forked.leads v near).later way.skeleton way.sound.skeleton way.toLater (Nat.le_refl _)
      exact before.append (way.leads v (forked.grows.result res) (.inr ((forked.right v).2 near)))
  refine entered.bind ?_
  intro _ s2 along2
  exact rest s2 along2

end Logic

section
variable (sound : u.Sound avail st s.module here)
include sound

theorem went_refl : u.Went st avail s avail s here :=
  (Along.refl sound).went

theorem setInsertPoint_went (ready : u.Ready avail s.module.graph dest) :
    Ends (build (Builder.setInsertPoint dest)) s broken fun _ t =>
      u.Went st avail s avail t dest := by
  refine .build fun _ module done => ?_
  obtain ⟨sound', _⟩ := sound.entered ready.inside done
  obtain ⟨_, rfl⟩ := setInsertPoint_ok done
  exact ⟨.refl _ _ _, sound', rfl, rfl⟩

theorem jump_went (ready : u.Ready avail s.module.graph dest) :
    Ends (build (Builder.jump dest)) s broken fun _ t => u.Went st avail s avail t here :=
  .build fun _ _ done =>
    (sound.jump ready.inside (fun v known => absurd known (ready.blank v)) done).went

theorem declare_went {n : String}
    (nested : 0 < s.module.symbols.inner.length) (known : u.Known s.module.graph slot) :
    Ends (build (Builder.declare n slot)) s broken fun _ t => u.Went st avail s avail t here := by
  refine .build fun _ module done => ?_
  obtain rfl := modify_ok.1 done
  obtain ⟨declared, eq⟩ := sound.toBuilding.declare nested (sound.held known).plain n
  exact ⟨.refl _ _ _, sound.renamed declared rfl (sound.known.insert known n) rfl sound.result, rfl, eq⟩

end

end Lower

namespace Site
variable {u : Site} {st : FunctionState} {module : Module}

structure Post (site : Site) (state : FunctionState) where
  avail : ValueId → ValueId → Prop
  s : Lowering
  here : ValueId
  referring : site.Referring avail state s here

namespace Post
variable {p q r : u.Post st} {pending later : List ValueId}
variable {use : Lower.Purpose} {v : ValueId}

def Along (p q : u.Post st) : Prop := u.Along st p.avail p.s p.here q.avail q.s q.here

structure Over (p q : u.Post st) (pending : List ValueId) : Prop
    extends u.Went st p.avail p.s q.avail q.s q.here where
  ready : ∀ block ∈ pending, u.Ready q.avail q.s.module.graph block

def Fit : Lower.Purpose → u.Post st → ValueId → Prop
  | .cell, p, v => u.Known p.s.module.graph v
  | _, p, v => u.Held p.avail p.s.module.graph p.here v

def went {avail : ValueId → ValueId → Prop} {after : Lowering} {there : ValueId} (p : u.Post st)
    (went : u.Went st p.avail p.s avail after there) : u.Post st :=
  ⟨avail, after, there, p.referring.went went⟩

def elsewhere (p : u.Post st) (contexts : List Location) (report : Report) : u.Post st where
  avail := p.avail
  s := { p.s with module.contexts := contexts, module.report := report }
  here := p.here
  referring := ⟨p.referring.toSound.elsewhere contexts report, p.referring.loops, p.referring.nested,
    p.referring.leaves⟩

private theorem ready_went {b : ValueId} (ready : u.Ready p.avail p.s.module.graph b)
    (went : u.Went st p.avail p.s q.avail q.s q.here) : u.Ready q.avail q.s.module.graph b :=
  ready.later p.referring.skeleton went.toLater

theorem Over.trans (first : p.Over q pending) (second : q.Over r later) : p.Over r (pending ++ later) := by
  refine ⟨first.toWent.trans second.toWent, fun block listed => ?_⟩
  rcases mem_append.1 listed with listed | listed
  · exact ready_went (first.ready block listed) second.toWent
  · exact second.ready block listed

theorem Fit.held (fit : Fit use p v) :
    u.Held p.avail p.s.module.graph p.here v := by
  cases use with
  | cell => exact p.referring.toSound.held fit
  | _ => exact fit

theorem Fit.along (fit : Fit use p v) (along : p.Along q) : Fit use q v := by
  cases use with
  | cell => exact Known.grown fit along.grows
  | _ => exact along.held fit

end Post

@[reducible] def refers (site : Site) (state : FunctionState) : Lower.Scheme where
  Point := site.Post state
  function := state
  state := Post.s
  here := Post.here
  safe := False
  Broken _ _ := True
  Fit := Post.Fit
  Along := Post.Along
  Forked p q block := Lower.Forked site state p.avail p.s p.here q.avail q.s q.here block
  Over := Post.Over
  Left p q after _ pending := p.Over q pending ∧ site.Went state q.avail q.s q.avail after q.here
  Aim _ q block := site.Ready q.avail q.s.module.graph block
  Leads _ _ _ := True
  Lost _ _ := True
  Sealed _ _ := True
  Sized _ := True
  Fits _ _ := True

open Lower

private theorem refers_built (p : u.Post st) {action : Builder ValueId}
    (each : ∀ v module, action p.s.module = .ok (v, module) →
      u.Onward st p.avail p.s.module p.here p.avail module p.here ∧ u.Held p.avail module.graph p.here v) :
    (u.refers st).Steps p (build action) fun v q => u.Held q.avail q.s.module.graph q.here v := by
  refine ⟨False.elim, .build fun v module done => ?_⟩
  obtain ⟨onward, held⟩ := each v module done
  exact ⟨p.went onward.went, rfl, ⟨onward, rfl⟩, held⟩

private theorem refers_computes (site : Site) (st : FunctionState) : (site.refers st).Computes where
  refl p := .refl p.referring.toSound
  trans first second := first.trans second
  broken _ _ := trivial
  reported _ := trivial
  stays along fit := fit.along along
  serves {p _ _ _} serves fit := by
    cases serves with
    | cell => exact p.referring.toSound.held fit
    | _ => exact fit
  inside fit := fit.held.plain.inside
  context p loc := by
    refine ⟨p.elsewhere (loc :: p.s.module.contexts) p.s.module.report, rfl, fun _ _ => trivial,
      fun r along => ?_, fun r past => ?_⟩
    · exact ⟨r.elsewhere r.s.module.contexts.tail r.s.module.report, rfl,
        ⟨⟨along.toLater, along.symbols, along.skeleton, along.sound.elsewhere _ r.s.module.report, along.carried,
          along.leads⟩, along.loops⟩, fun use _ fit => by cases use <;> exact fit⟩
    · exact ⟨r.elsewhere r.s.module.contexts.tail r.s.module.report, rfl,
        ⟨⟨past.toLater, past.sound.elsewhere _ r.s.module.report, past.loops, past.depth⟩, past.ready⟩, rfl⟩
  name {p _ _} hit := p.referring.toSound.held (p.referring.known.lookup hit)
  address held _ _ := held
  integer held _ _ := held
  number held _ _ := held
  callee {p _ _ _} hit _ := .inl (p.referring.callees _ (mem_of_find?_eq_some hit))
  constInt {p _ _} := refers_built p fun _ _ done => p.referring.toSound.constInt done
  constStr {p _} := refers_built p fun _ _ done =>
    (p.referring.toSound.added done rfl).imp_right fun hit => .inl (.str hit)
  valueOf {p _} held := refers_built p fun _ _ done =>
    (sound_upkeep site p.avail st p.here).valueOf p.referring.toSound held done
  toBool {p _} held := refers_built p fun _ _ done =>
    (sound_upkeep site p.avail st p.here).toBool p.referring.toSound held done
  unary {p _ _} held := refers_built p fun _ _ done =>
    (sound_upkeep site p.avail st p.here).unary p.referring.toSound held done
  binary {p _ _ _ _ _} left right := refers_built p fun _ _ done =>
    (sound_upkeep site p.avail st p.here).binary p.referring.toSound left right done
  icmp {p _ _ _} left right := refers_built p fun _ _ done =>
    (sound_upkeep site p.avail st p.here).icmp p.referring.toSound left right done
  assign {p _ _} slot held := refers_built p fun _ _ done =>
    (sound_upkeep site p.avail st p.here).assign p.referring.toSound slot held done
  call {p _ _} callee args := refers_built p fun _ _ done =>
    (sound_upkeep site p.avail st p.here).call p.referring.toSound callee args done
  bool := trivial
  alloca {p _ _} _ := by
    refine ⟨False.elim, (alloca_along p.referring.toSound).mono (fun _ bad => bad) ?_⟩
    intro _ _ ⟨along, known⟩
    exact ⟨p.went along.went, rfl, along, known⟩
  store {p _ _} held known := by
    refine ⟨False.elim, (store_along p.referring.toSound held (p.referring.toSound.held known)).mono (fun _ bad => bad) ?_⟩
    intro _ _ along
    exact ⟨p.went along.went, rfl, along, trivial⟩
  load {p _} known := refers_built p fun _ _ done =>
    (sound_upkeep site p.avail st p.here).load p.referring.toSound (p.referring.toSound.held known) done
  fork {p _ _ _ _} held rest := by
    refine ⟨False.elim, fork_ends p.referring.toSound held ?_⟩
    intro avail t rhsBlock endBlock forked
    exact (rest (p.went forked.went) endBlock forked).ends
  forked forked := ⟨fun _ known => Known.grown known forked.grows, fun _ _ => trivial⟩
  join {p _ _ _ _ _} forked along rest := by
    refine ⟨False.elim, forked.joined along ?_⟩
    intro final joined
    exact (rest (p.went joined.went) joined).ends

/-- Statements refer only to what was computed before. -/
theorem refers_controls (site : Site) (state : FunctionState) (leaves : state.exit.isSome) :
    (site.refers state).Controls where
  toComputes := refers_computes site state
  past along := ⟨along.went, by simp⟩
  overs first second := first.trans second
  undone _ _ := trivial
  waits past := past.ready
  aims ready past := Post.ready_went ready past.toWent
  leads _ := trivial
  block {p _} := by
    refine ⟨False.elim, (newBlock_asking (fun _ => False) p.referring.toSound fun _ never => never.elim).mono
      (fun _ bad => bad) ?_⟩
    intro block _ made
    refine ⟨p.went made.toAlong.went, rfl, ⟨made.toAlong.went, ?_⟩, fun _ _ fit => fit.along made.toAlong⟩
    intro w isIn
    obtain rfl := mem_singleton.1 isIn
    exact made.ready
  branch {p q _ _ _ _} past held first second := by
    refine ⟨False.elim, .build fun _ _ done => ⟨past, ?_⟩⟩
    exact (q.referring.toSound.branch held first.inside second.inside (fun v known => absurd known (first.blank v))
      (fun v known => absurd known (second.blank v)) done).went
  jump {p q _ _} past ready := by
    refine ⟨False.elim, ?_⟩
    refine (isTerminated_ends q.referring.toBuilding).bind ?_
    intro terminated _ ⟨_, same⟩
    subst same
    split
    · exact .pure ⟨past, went_refl q.referring.toSound⟩
    · refine (jump_went q.referring.toSound ready).bind ?_
      intro _ _ went
      exact .pure ⟨past, went⟩
  enter {p q after _ block _} left _ := by
    obtain ⟨past, went⟩ := left
    have ready := Post.ready_went (q := q.went went) (past.ready block (by simp)) went
    refine ⟨False.elim, (setInsertPoint_went went.sound ready).mono (fun _ bad => bad) ?_⟩
    intro _ last entered
    have way := went.trans entered
    exact ⟨q.went way, rfl, rfl, ⟨past.toWent.trans way, fun w isIn =>
      Post.ready_went (q := q.went way) (past.ready w (by simp [isIn])) way⟩,
      fun _ ready => Post.ready_went (q := q.went way) ready way, fun _ _ _ _ => trivial, fun _ _ => trivial⟩
  leave {p _} ready := by
    refine ⟨False.elim, (jump_went p.referring.toSound ready).bind ?_⟩
    intro _ s1 went1
    refine (newBlock_asking (fun _ => False) went1.sound fun _ never => never.elim).bind ?_
    intro block s2 made
    refine (setInsertPoint_went made.sound made.ready).mono (fun _ bad => bad) ?_
    intro _ after went3
    have way := (went1.trans made.toAlong.went).trans went3
    have more := Nat.lt_of_le_of_lt (Nat.le_trans went1.grows.size made.new) (made.sound.toBuilding.lt_of_mem made.ready.inside)
    exact ⟨p.went way, rfl, ⟨way, by simp⟩, Nat.lt_of_lt_of_le more went3.grows.size, trivial⟩
  grown past := past.grows.size
  seals _ _ := trivial
  kept _ _ _ _ := trivial
  ended _ _ _ _ := trivial
  loop {p q cond stop} past ready _ := by
    have stops := past.ready stop (by simp)
    have referring : site.Referring q.avail state { q.s with loops := ⟨cond, stop⟩ :: q.s.loops } q.here := by
      refine ⟨q.referring.toSound, ?_, q.referring.nested, q.referring.leaves⟩
      intro w member
      rcases mem_cons.1 member with rfl | member
      · exact ⟨ready, stops⟩
      · exact q.referring.loops w member
    refine ⟨⟨q.avail, _, q.here, referring⟩, rfl, fun _ _ => trivial, ?_⟩
    intro r body
    have went : site.Went state q.avail q.s r.avail { r.s with loops := r.s.loops.tail } r.here :=
      ⟨body.toLater, body.sound, congrArg List.tail body.loops, body.depth⟩
    refine ⟨q.went went, rfl, ⟨past.toWent.trans went, ?_⟩, Post.ready_went (q := q.went went) ready went, trivial⟩
    simpa using Post.ready_went (q := q.went went) stops went
  scope p := by
    have pushed : site.Sound p.avail state { p.s.module with symbols := p.s.module.symbols.push } p.here :=
      p.referring.toSound.renamed p.referring.toBuilding.push rfl p.referring.known.push rfl p.referring.result
    refine ⟨⟨p.avail, { p.s with module.symbols := p.s.module.symbols.push }, p.here,
      ⟨pushed, p.referring.loops, Nat.succ_pos _, p.referring.leaves⟩⟩, rfl, fun _ _ => trivial, ?_⟩
    intro r past
    obtain ⟨popped, same⟩ := r.referring.toBuilding.pop past.depth
    have went : site.Went state p.avail p.s r.avail { r.s with module.symbols := r.s.module.symbols.pop } r.here :=
      ⟨past.toLater, r.referring.toSound.renamed popped rfl r.referring.known.pop rfl r.referring.result,
        past.loops, same⟩
    exact ⟨p.went went, rfl, ⟨went, by simp⟩, rfl⟩
  current p := p.referring.current
  exit := by
    obtain ⟨exit, isExit⟩ := Option.isSome_iff_exists.1 leaves
    exact ⟨exit, isExit, fun p => p.referring.leaves exit isExit⟩
  result p slot isSlot := p.referring.toSound.held (p.referring.result slot isSlot)
  loops {p dests} member := p.referring.loops dests member
  declare {p _ _} known := by
    refine ⟨False.elim, (declare_went p.referring.toSound p.referring.nested known).mono (fun _ bad => bad) ?_⟩
    intro _ _ went
    exact ⟨p.went went, rfl, ⟨went, by simp⟩, trivial⟩
  warning {p _} := by
    refine ⟨False.elim, .build fun _ module done => ?_⟩
    obtain rfl := modify_ok.1 done
    exact ⟨p.elsewhere _ _, rfl, ⟨⟨.refl _ _ _, p.referring.toSound.elsewhere _ _, rfl, rfl⟩, by simp⟩, trivial⟩

end Site
end Midend
