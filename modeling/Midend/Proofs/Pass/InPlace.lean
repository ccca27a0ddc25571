import Midend.Proofs.Pass.Fresh
import Midend.Proofs.Pass.Topological

/-! Passes that are run on a pipeline in place. Requirements are looked up again at every step, and
one that is not registered ends the run there, with all that was done before. The order that was
found beforehand excludes this, so a run in place does the same as a run that returns its result. -/
namespace Midend
open List
variable {σ : Type}

structure Live (σ : Type) where
  pipeline : Pipeline σ
  fresh : List Nat := []
  calls : List (Nat × ValueId × Bool) := []

inductive Stop where
  | fault (f : Fault)
  | noFuel
deriving DecidableEq, Repr

inductive Request where
  | wanted
  | named (name : String)
deriving DecidableEq, Repr

abbrev InPlace (σ : Type) := ExceptT PassError (StateT (Live σ) (Except Stop))

namespace InPlace
variable {α : Type}

def stop (reason : Stop) : InPlace σ α := ExceptT.mk fun _ => .error reason

def anyOf (step : α → InPlace σ Bool) : List α → InPlace σ Bool
  | [] => return false
  | item :: rest => do
    let own ← step item
    let others ← anyOf step rest
    return own || others

def invoke (index : Nat) (pass : Pass σ) (func : ValueId) : InPlace σ Bool := do
  let s ← get
  match s.pipeline.module with
  | none => throw .noModule
  | some m =>
    match pass.run func (m.graph, s.pipeline.memory) with
    | .error f => stop (.fault f)
    | .ok (changed, graph, memory) =>
      set { s with
        pipeline.module := some { m with graph }
        pipeline.memory := memory
        calls := s.calls ++ [(index, func, changed)] }
      return changed

def runPass (index : Nat) (pass : Pass σ) : InPlace σ Bool := do
  match (← get).pipeline.module with
  | none => throw .noModule
  | some m =>
    let changed ← anyOf (invoke index pass) m.functions
    modify fun s => { s with fresh := index :: if changed && !pass.preserves then [] else s.fresh }
    return changed

def require (serve : Nat → InPlace σ Bool) (pass name : String) : InPlace σ Bool := do
  let s ← get
  match s.pipeline.registry.indexOf? name with
  | none => throw (.missingPrerequisite pass name)
  | some required => if required ∈ s.fresh then return false else serve required

def runWithRequired : Nat → Nat → InPlace σ Bool
  | 0, _ => stop .noFuel
  | fuel + 1, index => do
    let passes := (← get).pipeline.registry.passes
    match passes[index]? with
    | none => stop (.fault (.outOfBounds passes.length index))
    | some pass =>
      let before ← anyOf (require (runWithRequired fuel) pass.name) pass.requires
      let own ← runPass index pass
      return before || own

def runInOrder (fuel : Nat) (order : List Nat) : InPlace σ Bool :=
  anyOf (fun index => do if index ∈ (← get).fresh then return false else runWithRequired fuel index) order

def runRoots (fuel : Nat) (roots : List Nat) : InPlace σ Bool := do
  match (← get).pipeline.registry.schedule roots with
  | .error e => throw e
  | .ok order => runInOrder fuel order

def carryOut (fuel : Nat) (request : Request) : InPlace σ Bool := do
  let p := (← get).pipeline
  match p.module with
  | none => throw .noModule
  | some _ =>
    match request with
    | .wanted => runRoots fuel (p.registry.enabled p.level)
    | .named name =>
      match p.registry.indexOf? name with
      | none => throw (.unknownPass name)
      | some index => runRoots fuel [index]

end InPlace

def PassRun.calls (run : PassRun) : List (Nat × ValueId × Bool) := run.results.map (run.pass, ·)

def Pipeline.live (p : Pipeline σ) (m : Module) (progress : Progress σ) : Live σ where
  pipeline := { p with module := some { m with graph := progress.graph }, memory := progress.memory }
  fresh := progress.fresh
  calls := progress.runs.flatMap PassRun.calls

namespace InPlace
variable {p : Pipeline σ} {m : Module} {progress : Progress σ} {i : Nat} {pass : Pass σ}
variable {α β : Type} {s : Live σ} {x : InPlace σ α} {res : Except Fault (Progress σ)} {y : InPlace σ Bool}

theorem bind_run (x : InPlace σ α) (next : α → InPlace σ β) (s : Live σ) :
    (x >>= next).run s = x.run s >>= fun (res, t) =>
      match res with
      | .ok val => (next val).run t
      | .error e => .ok (.error e, t) := by
  change (x.run s >>= _) = _
  congr
  funext ⟨res, t⟩
  cases res <;> rfl

theorem get_bind_run (next : Live σ → InPlace σ α) (s : Live σ) :
    (MonadState.get >>= next).run s = (next s).run s := rfl

private theorem bind_run_of_ok (next : α → InPlace σ β) {t : Live σ} {val : α}
    (first : x.run s = .ok (.ok val, t)) : (x >>= next).run s = (next val).run t := by
  rw [bind_run, first]
  rfl

private theorem bind_run_of_stop (next : α → InPlace σ β) {reason : Stop} (first : x.run s = .error reason) :
    (x >>= next).run s = .error reason := by
  rw [bind_run, first]
  rfl

def worked (s : Live σ) (m : Module) (graph : Graph) (memory : σ) (calls : List (Nat × ValueId × Bool)) : Live σ :=
  { s with
    pipeline.module := some { m with graph }
    pipeline.memory := memory
    calls := s.calls ++ calls }

private theorem invoke_run {s : Live σ} (isModule : s.pipeline.module = some m) (f : ValueId) :
    (invoke i pass f).run s = ((pass.run f (m.graph, s.pipeline.memory)).map fun (own, graph, memory) =>
      (.ok own, worked s m graph memory [(i, f, own)])).mapError .fault := by
  rw [invoke, get_bind_run, isModule]
  dsimp only
  cases pass.run f (m.graph, s.pipeline.memory) <;> rfl

private theorem anyOf_invoke_run {s : Live σ} (isModule : s.pipeline.module = some m) (funcs : List ValueId) :
    (anyOf (invoke i pass) funcs).run s =
      ((Registry.runOver pass funcs (m.graph, s.pipeline.memory)).map fun (rs, graph, memory) =>
        (.ok (rs.any (·.2)), worked s m graph memory (rs.map (i, ·)))).mapError .fault := by
  induction funcs generalizing s m with
  | nil =>
    have eq : worked s m m.graph s.pipeline.memory [] = s := by
      obtain ⟨⟨registry, module, level, memory⟩, fresh, calls⟩ := s
      cases isModule
      simp [worked]
    change Except.ok (Except.ok false, s) = Except.ok (Except.ok false, worked s m m.graph s.pipeline.memory [])
    rw [eq]
  | cons fn tl ih =>
    rw [anyOf, Registry.runOver]
    have first := @invoke_run _ _ i pass s isModule fn
    cases ran : pass.run fn (m.graph, s.pipeline.memory) with
    | error f =>
      rw [ran] at first
      exact bind_run_of_stop _ first
    | ok answer =>
      obtain ⟨own, graph, memory⟩ := answer
      rw [ran] at first
      refine (bind_run_of_ok _ first).trans ?_
      have others := @ih { m with graph } (worked s m graph memory [(i, fn, own)]) rfl
      change _ = (Except.map _ (Registry.runOver pass tl (graph, memory))).mapError _ at others
      change _ = (Except.map _ (Registry.runOver pass tl (graph, memory) >>= _)).mapError _
      cases last : Registry.runOver pass tl (graph, memory) with
      | error f =>
        rw [last] at others
        exact bind_run_of_stop _ others
      | ok hit =>
        rw [last] at others
        refine (bind_run_of_ok _ others).trans ?_
        change Except.ok (Except.ok _, worked _ _ _ _ _) = Except.ok (Except.ok _, worked _ _ _ _ _)
        simp [worked]

/-- A step in place does what a step of a run from outside does, and it tells whether the runs that
were added changed something. -/
def Agrees (p : Pipeline σ) (m : Module) (x : InPlace σ Bool) (progress : Progress σ) :
    Except Fault (Progress σ) → Prop
  | .error f => x.run (p.live m progress) = .error (.fault f)
  | .ok after => ∃ added, after.runs = progress.runs ++ added ∧
      x.run (p.live m progress) = .ok (.ok (added.any PassRun.changed), p.live m after)

private theorem agrees_pure : Agrees p m (pure false) progress (.ok progress) := ⟨[], by simp, rfl⟩

theorem Agrees.congr {x : InPlace σ Bool} (eq : x.run (p.live m progress) = y.run (p.live m progress))
    (agrees : Agrees p m y progress res) : Agrees p m x progress res := by
  cases res with
  | error f => exact eq.trans agrees
  | ok t =>
    obtain ⟨add, runs, done⟩ := agrees
    exact ⟨add, runs, eq.trans done⟩

theorem Agrees.andThen {x : InPlace σ Bool} {next : Progress σ → Except Fault (Progress σ)}
    (first : Agrees p m x progress res) (second : ∀ mid, Agrees p m y mid (next mid)) :
    Agrees p m (do
      let pre ← x
      let own ← y
      return pre || own) progress (res >>= next) := by
  cases res with
  | error f => exact bind_run_of_stop _ first
  | ok mid =>
    obtain ⟨front, runs, done⟩ := first
    have second := second mid
    change Agrees p m _ progress (next mid)
    cases last : next mid with
    | error f =>
      rw [last] at second
      exact (bind_run_of_ok _ done).trans (bind_run_of_stop _ second)
    | ok t =>
      rw [last] at second
      obtain ⟨add, more, ended⟩ := second
      refine ⟨front ++ add, by rw [more, runs, append_assoc], ?_⟩
      rw [any_append]
      exact (bind_run_of_ok _ done).trans (bind_run_of_ok _ ended)

private theorem agrees_anyOf {items : List α} {inner : α → InPlace σ Bool} {outer : Progress σ → α → Except Fault (Progress σ)}
    (each : ∀ item ∈ items, ∀ progress, Agrees p m (inner item) progress (outer progress item)) :
    Agrees p m (anyOf inner items) progress (items.foldlM outer progress) := by
  induction items generalizing progress with
  | nil => exact agrees_pure
  | cons item tl ih =>
    rw [foldlM_cons]
    refine (each item mem_cons_self progress).andThen fun mid => ?_
    exact ih fun other mem => each other (mem_cons_of_mem item mem)

private theorem agrees_runPass : Agrees p m (runPass i pass) progress (Registry.runPass m.functions i pass progress) := by
  have invoked := @anyOf_invoke_run _ { m with graph := progress.graph } i pass (p.live m progress) rfl m.functions
  change _ = (Except.map _ (Registry.runOver pass m.functions (progress.graph, progress.memory))).mapError _ at invoked
  have looked : (runPass i pass).run (p.live m progress) = (do
      let upd ← anyOf (invoke i pass) m.functions
      modify fun s => { s with fresh := i :: if upd && !pass.preserves then [] else s.fresh }
      return upd : InPlace σ Bool).run (p.live m progress) := rfl
  refine Agrees.congr looked ?_
  unfold Registry.runPass
  cases ran : Registry.runOver pass m.functions (progress.graph, progress.memory) with
  | error f =>
    rw [ran] at invoked
    exact bind_run_of_stop _ invoked
  | ok res =>
    obtain ⟨rs, graph, memory⟩ := res
    rw [ran] at invoked
    refine ⟨[⟨i, rs⟩], rfl, (bind_run_of_ok _ invoked).trans ?_⟩
    change Except.ok (Except.ok _, _) = _
    simp only [Pipeline.live, worked, PassRun.calls, PassRun.changed, flatMap_append, flatMap_cons,
      flatMap_nil, append_nil, any_cons, any_nil, Bool.or_false]
    rfl

private theorem agrees_unless_fresh {x : InPlace σ Bool} {res : Except Fault (Progress σ)}
    (agrees : Agrees p m x progress res) :
    Agrees p m (do if i ∈ (← get).fresh then return false else x) progress
      (if i ∈ progress.fresh then pure progress else res) := by
  by_cases fresh : i ∈ progress.fresh
  · rw [if_pos fresh]
    refine Agrees.congr ?_ agrees_pure
    rw [get_bind_run]
    exact congrArg (fun x : InPlace σ Bool => x.run (p.live m progress)) (if_pos fresh)
  · rw [if_neg fresh]
    refine Agrees.congr ?_ agrees
    rw [get_bind_run]
    exact congrArg (fun x : InPlace σ Bool => x.run (p.live m progress)) (if_neg fresh)

/-- A pass with all that it requires. What stands before it in an order bounds how deep its
requirements go, and all of them are registered. -/
private theorem agrees_runWithRequired {fuel fuel' : Nat} {pre later : List Nat}
    (sorted : p.registry.Sorted (pre ++ i :: later)) (enough : pre.length < fuel)
    (enough' : pre.length < fuel') :
    Agrees p m (runWithRequired fuel i) progress (p.registry.runWithRequired m.functions fuel' i progress) := by
  induction fuel generalizing pre i later progress fuel' with
  | zero => omega
  | succ fuel ih =>
    obtain ⟨fuel', rfl⟩ := Nat.exists_eq_succ_of_ne_zero (by omega : fuel' ≠ 0)
    obtain ⟨before, pass, reg, requires⟩ := sorted.split
    have looked : (runWithRequired (fuel + 1) i : InPlace σ Bool).run (p.live m progress) = (do
        let before ← anyOf (require (runWithRequired fuel) pass.name) pass.requires
        let own ← runPass i pass
        return before || own : InPlace σ Bool).run (p.live m progress) := by
      rw [runWithRequired, get_bind_run]
      change (match p.registry.passes[i]? with | none => _ | some pass => _ : InPlace σ Bool).run _ = _
      rw [reg]
    refine Agrees.congr looked ?_
    unfold Registry.runWithRequired
    simp only [reg]
    refine (agrees_anyOf fun n mem progress => ?_).andThen fun mid => agrees_runPass
    obtain ⟨req, isIn, hit⟩ := requires n mem
    obtain ⟨front, back, rfl⟩ := append_of_mem isIn
    simp only [length_append, length_cons] at enough enough'
    have served := @ih progress req fuel' front back before (by omega) (by omega)
    simp only [hit]
    refine Agrees.congr ?_ (@agrees_unless_fresh _ p m progress req _ _ served)
    rw [require, get_bind_run]
    change (match p.registry.indexOf? n with | none => _ | some req => _ : InPlace σ Bool).run _ = _
    rw [hit]
    rfl

private theorem agrees_runInOrder {order : List Nat} {fuel : Nat} (sorted : p.registry.Sorted order)
    (enough : p.registry.passes.length ≤ fuel) :
    Agrees p m (runInOrder fuel order) progress (p.registry.runInOrder m.functions order progress) := by
  refine agrees_anyOf fun i mem progress => ?_
  obtain ⟨pre, later, rfl⟩ := append_of_mem mem
  have lt := sorted.length_le
  simp only [length_append, length_cons] at lt
  exact agrees_unless_fresh (agrees_runWithRequired sorted (by omega) (by omega))

/-- Passes that are run in place and passes that are run from outside come to the same. A run in
place that gives up has not done anything. -/
theorem runRoots_run {roots : List Nat} {fuel : Nat} (isModule : p.module = some m)
    (enough : p.registry.passes.length ≤ fuel) :
    match p.runRoots m roots with
    | .error (.pass e) => (runRoots fuel roots).run { pipeline := p } = .ok (.error e, { pipeline := p })
    | .error (.fault f) => (runRoots fuel roots).run { pipeline := p } = .error (.fault f)
    | .ok (outcome, t) => ∃ fresh, (runRoots fuel roots).run { pipeline := p } =
        .ok (.ok outcome.changed, ⟨t, fresh, outcome.runs.flatMap PassRun.calls⟩) := by
  have s0 : ({ pipeline := p } : Live σ) = p.live m { graph := m.graph, memory := p.memory } := by
    obtain ⟨registry, module, level, memory⟩ := p
    cases isModule
    rfl
  have looked : (runRoots fuel roots : InPlace σ Bool).run { pipeline := p } = (match p.registry.schedule roots with
        | .error e => throw e
        | .ok order => runInOrder fuel order : InPlace σ Bool).run { pipeline := p } := rfl
  rw [looked, Pipeline.runRoots]
  cases scheduled : p.registry.schedule roots with
  | error e => rfl
  | ok order =>
    have agrees := @agrees_runInOrder _ p m { graph := m.graph, memory := p.memory } _ _
      (Registry.schedule_sorted scheduled).1 enough
    dsimp only
    cases ran : p.registry.runInOrder m.functions order { graph := m.graph, memory := p.memory } with
    | error f =>
      rw [ran] at agrees
      exact s0 ▸ agrees
    | ok t =>
      rw [ran] at agrees
      obtain ⟨add, runs, done⟩ := agrees
      rw [nil_append] at runs
      subst runs
      exact ⟨t.fresh, s0 ▸ done⟩

end InPlace
end Midend
