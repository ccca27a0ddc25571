import Midend.Proofs.Pass.InPlace

/-! What a pipeline has done when it was asked to run passes: nothing if it gives up, and otherwise
all that was asked for and needed, each pass on every function. -/
namespace Midend
open List
variable {α β ε : Type} {e : ε}

private theorem bind_eq_error {first : Except ε α} {next : α → Except ε β} :
    (first >>= next) = .error e ↔ first = .error e ∨ ∃ val, first = .ok val ∧ next val = .error e := by
  cases first with
  | error e' => simp [bind, Except.bind]
  | ok val => simp [bind, Except.bind]

private theorem foldlM_error {step : β → α → Except ε β} {items : List α} {s0 : β}
    (failed : items.foldlM step s0 = .error e) : ∃ item ∈ items, ∃ pre, step pre item = .error e := by
  induction items generalizing s0 with
  | nil => cases failed
  | cons item tl ih =>
    rw [foldlM_cons] at failed
    rcases bind_eq_error.1 failed with first | ⟨next, _, later⟩
    · exact ⟨item, mem_cons_self, s0, first⟩
    · obtain ⟨other, mem, hit⟩ := ih later
      exact ⟨other, mem_cons_of_mem item mem, hit⟩

namespace Registry
variable {σ : Type} {r : Registry σ} {fs : List ValueId} {p after : Progress σ} {i : Nat} {f : Fault}
variable {funcs : List ValueId} {pass : Pass σ} {st : Graph × σ} {fuel : Nat} {order : List Nat}

private theorem runOver_functions {after : Graph × σ} {rs : List (ValueId × Bool)}
    (done : runOver pass funcs st = .ok (rs, after)) : rs.map (·.1) = funcs := by
  induction funcs generalizing st rs after with
  | nil =>
    cases done
    rfl
  | cons fn tl ih =>
    obtain ⟨⟨upd, mid⟩, _, done⟩ := bind_eq_ok.1 done
    obtain ⟨⟨others, last⟩, ran, done⟩ := bind_eq_ok.1 done
    cases done
    rw [map_cons, ih ran]

private theorem runWithRequired_keeps {P : Progress σ → Prop}
    (kept : ∀ i pass p after, P p → runPass fs i pass p = .ok after → P after) (h : P p)
    (done : r.runWithRequired fs fuel i p = .ok after) : P after := by
  induction fuel generalizing i p after with
  | zero =>
    unfold runWithRequired at done
    cases done
    exact h
  | succ fuel ih =>
    unfold runWithRequired at done
    split at done
    next pass hit eq reg =>
      cases eq
      obtain ⟨ready, through, ran⟩ := bind_eq_ok.1 done
      refine kept i hit ready after (foldlM_keeps hit.requires ?_ h through) ran
      intro pre n _ next h step
      split at step
      · split at step
        · cases step
          exact h
        · exact ih h step
      · cases step
        exact h
    · cases done
      exact h

private theorem runInOrder_keeps {P : Progress σ → Prop}
    (kept : ∀ i pass p after, P p → runPass fs i pass p = .ok after → P after) {order : List Nat}
    (h : P p) (done : r.runInOrder fs order p = .ok after) : P after := by
  refine foldlM_keeps order ?_ h done
  intro pre i _ next h step
  split at step
  · cases step
    exact h
  · exact runWithRequired_keeps kept h step

private theorem runInOrder_functions (none : p.runs = []) (done : r.runInOrder fs order p = .ok after) :
    ∀ run ∈ after.runs, run.results.map (·.1) = fs := by
  refine @runInOrder_keeps _ r fs p after (fun p => ∀ run ∈ p.runs, run.results.map (·.1) = fs)
    ?_ order (by simp [none]) done
  intro i pass p after h done
  obtain ⟨⟨rs, graph, memory⟩, ran, noted⟩ := bind_eq_ok.1 done
  cases noted
  intro run mem
  rcases mem_append.1 mem with pre | own
  · exact h run pre
  · rw [mem_singleton.1 own]
    exact runOver_functions ran

private theorem Sound.runInOrder_runs {tl : List Nat} (sorted : r.Sorted order) (into : tl ⊆ order) (sound : r.Sound p)
    (done : r.runInOrder fs tl p = .ok after) :
    ∃ add, after.runs = p.runs ++ add ∧ (∀ i ∈ tl, ∃ run ∈ after.runs, run.pass = i) ∧
      ∀ run ∈ add, ∃ i ∈ tl, r.Needs i run.pass := by
  induction tl generalizing p with
  | nil =>
    cases done
    exact ⟨[], by simp, by simp, by simp⟩
  | cons i tl ih =>
    unfold Registry.runInOrder at done
    rw [foldlM_cons] at done
    obtain ⟨mid, first, last⟩ := bind_eq_ok.1 done
    have served : r.Served i p mid := by
      split at first
      next fresh =>
        cases first
        exact ⟨sound, fresh, [], by simp, by simp⟩
      · obtain ⟨pre, later, rfl⟩ := append_of_mem (into mem_cons_self)
        have lt := sorted.length_le
        simp only [length_append, length_cons] at lt
        exact sound.runWithRequired sorted (by omega) first
    obtain ⟨add, runs, all, needed⟩ := ih (subset_of_cons_subset into) served.sound last
    obtain ⟨own, ownRuns, ownNeeded⟩ := served.runs
    refine ⟨own ++ add, by rw [runs, ownRuns, append_assoc], ?_, ?_⟩
    · intro other mem
      rcases mem_cons.1 mem with rfl | later
      · obtain ⟨since, ⟨pre, run, split, eq, _⟩, _⟩ := served.sound.fresh other served.fresh
        exact ⟨run, by simp [runs, split], eq⟩
      · exact all other later
    · intro run mem
      rcases mem_append.1 mem with early | late
      · exact ⟨i, mem_cons_self, ownNeeded run early⟩
      · obtain ⟨other, isIn, needs⟩ := needed run late
        exact ⟨other, mem_cons_of_mem i isIn, needs⟩

def Faults (r : Registry σ) (f : Fault) : Prop :=
  ∃ pass ∈ r.passes, ∃ func state, pass.run func state = .error f

private theorem runOver_error (failed : runOver pass funcs st = .error f) : ∃ fn st, pass.run fn st = .error f := by
  induction funcs generalizing st with
  | nil => cases failed
  | cons fn tl ih =>
    rcases bind_eq_error.1 failed with first | ⟨answer, _, failed⟩
    · exact ⟨fn, st, first⟩
    · rcases bind_eq_error.1 failed with later | ⟨others, _, ended⟩
      · exact ih later
      · cases ended

private theorem runPass_error (failed : runPass fs i pass p = .error f) :
    ∃ fn st, pass.run fn st = .error f := by
  rcases bind_eq_error.1 failed with ran | ⟨res, _, noted⟩
  · exact runOver_error ran
  · cases noted

private theorem runWithRequired_error (failed : r.runWithRequired fs fuel i p = .error f) : r.Faults f := by
  induction fuel generalizing i p with
  | zero =>
    unfold runWithRequired at failed
    cases failed
  | succ fuel ih =>
    unfold runWithRequired at failed
    split at failed
    next pass hit eq reg =>
      cases eq
      rcases bind_eq_error.1 failed with through | ⟨ready, _, ran⟩
      · obtain ⟨n, _, pre, step⟩ := foldlM_error through
        split at step
        · split at step
          · cases step
          · exact ih step
        · cases step
      · obtain ⟨fn, st, ran⟩ := runPass_error ran
        exact ⟨hit, mem_of_getElem? reg, fn, st, ran⟩
    · cases failed

private theorem runInOrder_error (failed : r.runInOrder fs order p = .error f) : r.Faults f := by
  obtain ⟨i, _, pre, step⟩ := foldlM_error failed
  split at step
  · cases step
  · exact runWithRequired_error step

end Registry

namespace Pipeline
variable {σ : Type} {p after : Pipeline σ} {m : Module} {roots : List Nat} {outcome : Outcome}

def answer (p : Pipeline σ) : Request → Except RunError (Outcome × Pipeline σ)
  | .wanted => p.runWanted
  | .named name => p.runNamed name

def asked (p : Pipeline σ) : Request → List Nat
  | .wanted => p.registry.enabled p.level
  | .named name => (p.registry.indexOf? name).toList

/-- A request can be carried out: there is a module, a pass that is asked for by name is there, and
what is needed is registered and does not need itself. -/
structure Ready (p : Pipeline σ) (request : Request) : Prop where
  module : p.module ≠ none
  known : ∀ name, request = .named name → name ∈ p.registry.names
  needed : ∀ index, p.registry.Reached (p.asked request) index →
    (∀ name, ¬ p.registry.Lacks index name) ∧ ¬ p.registry.Cyclic index

/-- What holds when passes have been run: those that were run are the given ones and what they need,
each run was over all functions in their order, each pass that a pass requires is registered and was
run before it, and the module has the graph that the passes left. -/
structure Completes (p : Pipeline σ) (roots : List Nat) (outcome : Outcome) (after : Pipeline σ) : Prop where
  passes : ∀ index, (∃ run ∈ outcome.runs, run.pass = index) ↔ p.registry.Reached roots index
  functions : ∃ m graph, p.module = some m ∧ after.module = some { m with graph } ∧ after.registry = p.registry ∧
    after.level = p.level ∧ ∀ run ∈ outcome.runs, run.results.map (·.1) = m.functions
  required : ∀ before run rest, outcome.runs = before ++ run :: rest →
    ∃ pass, p.registry.passes[run.pass]? = some pass ∧ ∀ name ∈ pass.requires,
      ∃ index, p.registry.indexOf? name = some index ∧ ∃ earlier ∈ before, earlier.pass = index
  changed : outcome.changed = true ↔ ∃ call ∈ outcome.runs.flatMap PassRun.calls, call.2.2 = true

private theorem changed_iff (outcome : Outcome) :
    outcome.changed = true ↔ ∃ call ∈ outcome.runs.flatMap PassRun.calls, call.2.2 = true := by
  simp only [Outcome.changed, PassRun.changed, any_eq_true, mem_flatMap, PassRun.calls, mem_map]
  constructor
  · rintro ⟨run, mem, res, isIn, yes⟩
    exact ⟨(run.pass, res), ⟨run, mem, res, isIn, rfl⟩, yes⟩
  · rintro ⟨_, ⟨run, mem, res, isIn, rfl⟩, yes⟩
    exact ⟨run, mem, res, isIn, yes⟩

private theorem runRoots_completes (isModule : p.module = some m) (reg : ∀ root ∈ roots, root < p.registry.passes.length)
    (done : p.runRoots m roots = .ok (outcome, after)) : p.Completes roots outcome after := by
  have prepared := runRoots_sound done
  unfold runRoots at done
  cases scheduled : p.registry.schedule roots with
  | error e =>
    rw [scheduled] at done
    cases done
  | ok order =>
    simp only [scheduled] at done
    cases ran : p.registry.runInOrder m.functions order { graph := m.graph, memory := p.memory } with
    | error f =>
      rw [ran] at done
      cases done
    | ok progress =>
      rw [ran] at done
      cases done
      have sorted := (Registry.schedule_sorted scheduled).1
      have sorts := Registry.sorts_of_registered reg
      have s0 : p.registry.Sound { graph := m.graph, memory := p.memory } := ⟨by simp, by simp⟩
      obtain ⟨add, runs, all, needed⟩ := s0.runInOrder_runs sorted (List.Subset.refl order) ran
      rw [nil_append] at runs
      refine ⟨?_, ⟨m, progress.graph, isModule, rfl, rfl, rfl, Registry.runInOrder_functions rfl ran⟩, ?_, changed_iff _⟩
      · intro i
        rw [← sorts.mem_iff order scheduled]
        constructor
        · rintro ⟨run, mem, rfl⟩
          obtain ⟨other, isIn, needs⟩ := needed run (runs ▸ mem)
          exact sorted.needs isIn needs
        · exact all i
      · intro before run tl split
        obtain ⟨pass, hit, stands⟩ := prepared before run tl split
        refine ⟨pass, hit, ?_⟩
        intro n mem
        obtain ⟨front, back, split⟩ := append_of_mem mem
        obtain ⟨i, since, old, ⟨pre, last, split, eq, _⟩, _⟩ := stands front n back split
        exact ⟨i, old, last, by simp [split], eq⟩

private theorem runRoots_error_iff (reg : ∀ root ∈ roots, root < p.registry.passes.length) :
    (∃ e, p.runRoots m roots = .error (.pass e)) ↔ ¬ ∀ i, p.registry.Reached roots i →
      (∀ n, ¬ p.registry.Lacks i n) ∧ ¬ p.registry.Cyclic i := by
  rw [← (Registry.sorts_of_registered reg).succeeds]
  unfold runRoots
  cases p.registry.schedule roots with
  | error e => simp
  | ok order =>
    have succeeds : ∃ order', Except.ok (ε := PassError) order = .ok order' := ⟨order, rfl⟩
    refine ⟨fun ⟨e, failed⟩ => ?_, fun never => absurd succeeds never⟩
    dsimp only at failed
    split at failed <;> cases failed

private theorem runRoots_fault {f : Fault} (failed : p.runRoots m roots = .error (.fault f)) : p.registry.Faults f := by
  unfold runRoots at failed
  split at failed
  · cases failed
  · split at failed
    next ran =>
      cases failed
      exact Registry.runInOrder_error ran
    · cases failed

private theorem answer_eq (isModule : p.module = some m) {request : Request}
    (old : ∀ n, request = .named n → n ∈ p.registry.names) :
    p.answer request = p.runRoots m (p.asked request) ∧ (∀ root ∈ p.asked request, root < p.registry.passes.length) ∧
      ∀ fuel, (InPlace.carryOut fuel request).run ⟨p, [], []⟩ =
        (InPlace.runRoots fuel (p.asked request)).run ⟨p, [], []⟩ := by
  cases request with
  | wanted =>
    refine ⟨by rw [answer, runWanted, isModule]; rfl, fun root => Registry.lt_length_of_enabled, fun fuel => ?_⟩
    rw [InPlace.carryOut, InPlace.get_bind_run]
    simp only [isModule]
    rfl
  | named n =>
    have old := old n rfl
    cases hit : p.registry.indexOf? n with
    | none => exact absurd old (Registry.indexOf?_eq_none.1 hit)
    | some i =>
      have asks : p.asked (.named n) = [i] := by rw [asked, hit]; rfl
      rw [asks]
      refine ⟨?_, ?_, fun fuel => ?_⟩
      · simp only [answer, runNamed, isModule, hit]
      · intro root mem
        rw [mem_singleton.1 mem]
        exact Registry.lt_length_of_indexOf? hit
      · rw [InPlace.carryOut, InPlace.get_bind_run]
        simp only [isModule, hit]

/-- Running passes is all or nothing. If a pipeline gives up, it is as it was, and no pass was
invoked; it does so exactly if it is not ready for what is asked. Otherwise it runs what is asked for
and needed, to the end, unless a pass has a fault. Any fuel from the number of passes on gives the
same, so the recursion through requirements ends. -/
theorem pipeline_runs_all_or_nothing (p : Pipeline σ) (request : Request) (fuel : Nat)
    (enough : p.registry.passes.length ≤ fuel) :
    (match p.answer request with
      | .error (.pass e) => (InPlace.carryOut fuel request).run ⟨p, [], []⟩ = .ok (.error e, ⟨p, [], []⟩)
      | .error (.fault f) => (InPlace.carryOut fuel request).run ⟨p, [], []⟩ = .error (.fault f) ∧ p.registry.Faults f
      | .ok (outcome, after) =>
        (∃ fresh, (InPlace.carryOut fuel request).run ⟨p, [], []⟩ =
          .ok (.ok outcome.changed, ⟨after, fresh, outcome.runs.flatMap PassRun.calls⟩)) ∧
        p.Completes (p.asked request) outcome after) ∧
    ((∃ e, p.answer request = .error (.pass e)) ↔ ¬ p.Ready request) := by
  cases isModule : p.module with
  | none =>
    have nothing : p.answer request = .error (.pass .noModule) := by
      cases request <;> simp only [answer, runWanted, runNamed, isModule]
    rw [nothing]
    refine ⟨?_, fun _ ready => ready.module isModule, fun _ => ⟨_, rfl⟩⟩
    dsimp only
    rw [InPlace.carryOut, InPlace.get_bind_run]
    simp only [isModule]
    rfl
  | some m =>
    by_cases known : ∀ name, request = .named name → name ∈ p.registry.names
    · obtain ⟨answers, registered, carried⟩ := answer_eq isModule known
      have failing := runRoots_error_iff (m := m) registered
      have agrees := @InPlace.runRoots_run _ p m (p.asked request) fuel isModule enough
      rw [answers, carried]
      refine ⟨?_, failing.trans ⟨fun unfit ready => unfit ready.needed, fun unready needed => unready ⟨?_, known, needed⟩⟩⟩
      · cases result : p.runRoots m (p.asked request) with
        | error e =>
          rw [result] at agrees
          cases e with
          | pass e => exact agrees
          | fault f => exact ⟨agrees, runRoots_fault result⟩
        | ok found =>
          rw [result] at agrees
          exact ⟨agrees, runRoots_completes isModule registered result⟩
      · rw [isModule]
        exact Option.some_ne_none m
    · obtain ⟨name, rfl, unknown⟩ : ∃ name, request = .named name ∧ name ∉ p.registry.names := by
        simpa using known
      have missing := Registry.indexOf?_eq_none.2 unknown
      have nothing : p.answer (.named name) = .error (.pass (.unknownPass name)) := by
        simp only [answer, runNamed, isModule, missing]
      rw [nothing]
      refine ⟨?_, fun _ ready => unknown (ready.known name rfl), fun _ => ⟨_, rfl⟩⟩
      dsimp only
      rw [InPlace.carryOut, InPlace.get_bind_run]
      simp only [isModule, missing]
      rfl

/-- The pipeline in which an analysis is spoilt and run again does all that is wanted, also in place. -/
theorem restless_runs_all : restless.registry.passes.length ≤ 4 ∧ ∃ after fresh,
    restless.answer .wanted = .ok (⟨restlessRuns ++ [⟨3, [(⟨0⟩, false)]⟩]⟩, after) ∧
      (InPlace.carryOut 4 .wanted).run ⟨restless, [], []⟩ = .ok (.ok true, ⟨after, fresh,
        [(0, ⟨0⟩, false), (1, ⟨0⟩, true), (2, ⟨0⟩, true), (0, ⟨0⟩, false), (1, ⟨0⟩, true), (3, ⟨0⟩, false)]⟩) ∧
      restless.Completes [0, 1, 2, 3] ⟨restlessRuns ++ [⟨3, [(⟨0⟩, false)]⟩]⟩ after := by
  obtain ⟨after, ran⟩ := restless_runWanted
  have answers : restless.answer .wanted = .ok (⟨restlessRuns ++ [⟨3, [(⟨0⟩, false)]⟩]⟩, after) := ran
  have done := (pipeline_runs_all_or_nothing restless .wanted 4 (by decide)).1
  rw [answers] at done
  obtain ⟨⟨fresh, inPlace⟩, completes⟩ := done
  exact ⟨by decide, after, fresh, answers, inPlace, completes⟩

end Pipeline
end Midend
