import Midend.Pass.Pipeline
import Midend.Pass.Scripted
import Midend.Proofs.Pass.Schedule

/-! What stands when a pass is run. All that it requires has run before, and what was found
out then is still true of the code, unless a requirement listed later had to run again and
something it needs changed the code. -/
namespace Midend.Registry
open List
variable {σ : Type} {r : Registry σ} {runs add since : List PassRun} {i : Nat}

/-- A run that changed the code and does not keep true what other passes found out. -/
def Spoils (r : Registry σ) (run : PassRun) : Prop :=
  run.changed = true ∧ ∃ pass, r.passes[run.pass]? = some pass ∧ pass.preserves = false

def Since (runs : List PassRun) (index : Nat) (since : List PassRun) : Prop :=
  ∃ earlier last, runs = earlier ++ last :: since ∧ last.pass = index ∧ ∀ run ∈ since, run.pass ≠ index

theorem Since.snoc (ran : Since runs i since) (run : PassRun) :
    ∃ tl, Since (runs ++ [run]) i tl ∧ tl ⊆ since ++ [run] := by
  obtain ⟨pre, last, rfl, same, others⟩ := ran
  by_cases again : run.pass = i
  · exact ⟨[], ⟨pre ++ last :: since, run, rfl, again, by simp⟩, by simp⟩
  · refine ⟨since ++ [run], ⟨pre, last, by simp, same, ?_⟩, List.Subset.refl _⟩
    intro other member
    rcases mem_append.1 member with member | member
    · exact others other member
    · rwa [mem_singleton.1 member]

theorem Since.append (ran : Since runs i since) (add : List PassRun) :
    ∃ tl, Since (runs ++ add) i tl ∧ tl ⊆ since ++ add := by
  induction add using List.reverseRecOn with
  | nil => exact ⟨since, by simpa using ran, by simp⟩
  | append_singleton add run ih =>
    obtain ⟨mid, ran, into⟩ := ih
    obtain ⟨tl, last, within⟩ := ran.snoc run
    refine ⟨tl, by simpa using last, ?_⟩
    intro other mem
    have := within mem
    grind

/-- A requirement has run, and what spoilt it since was needed by one of those listed after it. -/
def Stands (r : Registry σ) (runs : List PassRun) (name : String) (later : List String) : Prop :=
  ∃ required since, r.indexOf? name = some required ∧ Since runs required since ∧
    ∀ run ∈ since, r.Spoils run → ∃ other ∈ later, ∃ start, r.indexOf? other = some start ∧ r.Needs start run.pass

def Prepared (r : Registry σ) (runs : List PassRun) (names : List String) : Prop :=
  ∀ earlier name later, names = earlier ++ name :: later → r.Stands runs name later

structure Sound (r : Registry σ) (p : Progress σ) : Prop where
  fresh : ∀ index ∈ p.fresh, ∃ since, Since p.runs index since ∧ ∀ run ∈ since, ¬ r.Spoils run
  runs : ∀ before run after, p.runs = before ++ run :: after →
    ∃ pass, r.passes[run.pass]? = some pass ∧ r.Prepared before pass.requires

structure Served (r : Registry σ) (index : Nat) (p after : Progress σ) : Prop where
  sound : r.Sound after
  fresh : index ∈ after.fresh
  runs : ∃ added, after.runs = p.runs ++ added ∧ ∀ run ∈ added, r.Needs index run.pass

variable {fs : List ValueId} {pass : Pass σ} {p after : Progress σ}

private theorem runPass_ok (done : runPass fs i pass p = .ok after) :
    ∃ run : PassRun, run.pass = i ∧ after.runs = p.runs ++ [run] ∧
      after.fresh = i :: if run.changed && !pass.preserves then [] else p.fresh := by
  obtain ⟨⟨rs, graph, memory⟩, _, noted⟩ := bind_eq_ok.1 done
  cases noted
  exact ⟨⟨i, rs⟩, rfl, rfl, rfl⟩

/-- Running a pass keeps every recorded run prepared. -/
theorem Sound.runPass (sound : r.Sound p) (reg : r.passes[i]? = some pass)
    (prepared : r.Prepared p.runs pass.requires) (done : runPass fs i pass p = .ok after) :
    r.Sound after := by
  obtain ⟨run, same, runs, fresh⟩ := runPass_ok done
  refine ⟨?_, ?_⟩
  · intro other member
    rw [fresh] at member
    rw [runs]
    rcases mem_cons.1 member with rfl | member
    · exact ⟨[], ⟨p.runs, run, rfl, same, by simp⟩, by simp⟩
    · by_cases spoilt : (run.changed && !pass.preserves) = true
      · simp [spoilt] at member
      · rw [if_neg spoilt] at member
        obtain ⟨since, ran, intact⟩ := sound.fresh other member
        obtain ⟨tl, last, within⟩ := ran.snoc run
        refine ⟨tl, last, ?_⟩
        intro later member
        rcases mem_append.1 (within member) with member | member
        · exact intact later member
        · rw [mem_singleton.1 member]
          rintro ⟨upd, old, hit, spoils⟩
          rw [same, reg] at hit
          cases hit
          simp [upd, spoils] at spoilt
  · intro pre other tl split
    rw [runs] at split
    rcases append_eq_append_iff.1 split with ⟨middle, left, right⟩ | ⟨middle, left, right⟩
    · cases middle with
      | nil =>
        obtain ⟨rfl, _⟩ := List.cons.inj right
        rw [left, append_nil]
        exact ⟨pass, same ▸ reg, prepared⟩
      | cons head tail => simp at right
    · cases middle with
      | nil =>
        obtain ⟨rfl, _⟩ := List.cons.inj right
        rw [← append_nil pre, ← left]
        exact ⟨pass, same ▸ reg, prepared⟩
      | cons head tail =>
        obtain ⟨rfl, _⟩ := List.cons.inj right
        exact sound.runs pre other tail left

private theorem Sound.requirements {serve : Nat → Progress σ → Except Fault (Progress σ)}
    {ns : List String} (old : ∀ n ∈ ns, ∃ req, r.indexOf? n = some req ∧
      ∀ p after, r.Sound p → serve req p = .ok after → r.Served req p after)
    (sound : r.Sound p)
    (done : ns.foldlM (fun p n =>
      match r.indexOf? n with
      | some req => if req ∈ p.fresh then return p else serve req p
      | none => return p) p = .ok after) :
    r.Sound after ∧ r.Prepared after.runs ns ∧ ∃ add, after.runs = p.runs ++ add ∧
      ∀ run ∈ add, ∃ n ∈ ns, ∃ s0, r.indexOf? n = some s0 ∧ r.Needs s0 run.pass := by
  induction ns generalizing p with
  | nil =>
    rw [foldlM_nil, pure_eq_ok] at done
    subst done
    exact ⟨sound, by simp [Prepared], [], by simp, by simp⟩
  | cons n ns ih =>
    rw [foldlM_cons, bind_eq_ok] at done
    obtain ⟨next, first, tl⟩ := done
    obtain ⟨req, hit, serves⟩ := old n mem_cons_self
    have served : r.Served req p next := by
      simp only [hit] at first
      split at first
      · rename_i member
        cases first
        exact ⟨sound, member, [], by simp, by simp⟩
      · exact serves p next sound first
    obtain ⟨last, prepared, add, ran, needed⟩ :=
      ih (fun other member => old other (mem_cons_of_mem _ member)) served.sound tl
    obtain ⟨own, ownRan, ownNeeded⟩ := served.runs
    refine ⟨last, ?_, own ++ add, by rw [ran, ownRan, append_assoc], ?_⟩
    · intro pre other later split
      cases pre with
      | cons head tail => exact prepared tail other later (List.cons.inj split).2
      | nil =>
        obtain ⟨rfl, rfl⟩ := List.cons.inj split
        -- It was fresh when the others came on, so only these can have spoilt it.
        obtain ⟨since, sinceOwn, intact⟩ := served.sound.fresh req served.fresh
        obtain ⟨tl, sinceAll, within⟩ := sinceOwn.append add
        refine ⟨req, tl, hit, ran ▸ sinceAll, ?_⟩
        intro run member spoils
        rcases mem_append.1 (within member) with member | member
        · exact absurd spoils (intact run member)
        · exact needed run member
    · intro run member
      rcases mem_append.1 member with member | member
      · exact ⟨n, mem_cons_self, req, hit, ownNeeded run member⟩
      · obtain ⟨other, mem, s0⟩ := needed run member
        exact ⟨other, mem_cons_of_mem _ mem, s0⟩

/-- A pass with all that it needs. What stands before it in an order bounds how deep its
requirements go. -/
theorem Sound.runWithRequired {fuel : Nat} {pre later : List Nat}
    (sorted : r.Sorted (pre ++ i :: later)) (enough : pre.length < fuel) (sound : r.Sound p)
    (done : r.runWithRequired fs fuel i p = .ok after) : r.Served i p after := by
  induction fuel generalizing pre i later p after with
  | zero => omega
  | succ fuel ih =>
    obtain ⟨before, pass, reg, requires⟩ := sorted.split
    unfold Registry.runWithRequired at done
    simp only [reg] at done
    obtain ⟨ready, through, ran⟩ := bind_eq_ok.1 done
    have old : ∀ n ∈ pass.requires, ∃ req, r.indexOf? n = some req ∧
        ∀ p after, r.Sound p → r.runWithRequired fs fuel req p = .ok after → r.Served req p after := by
      intro n member
      obtain ⟨req, mem, hit⟩ := requires n member
      obtain ⟨front, back, rfl⟩ := append_of_mem mem
      refine ⟨req, hit, fun p after sound done => ?_⟩
      apply ih before _ sound done
      simp only [length_append, length_cons] at enough
      omega
    obtain ⟨kept, prepared, add, addedRan, needed⟩ := Sound.requirements old sound through
    obtain ⟨run, same, runs, fresh⟩ := runPass_ok ran
    refine ⟨kept.runPass reg prepared ran, by simp [fresh], add ++ [run], ?_, ?_⟩
    · rw [runs, addedRan, append_assoc]
    · intro other member
      rcases mem_append.1 member with member | member
      · obtain ⟨n, mem, s0, hit, path⟩ := needed other member
        exact .head ⟨pass, reg, n, mem, hit⟩ path
      · rw [mem_singleton.1 member, same]
        exact .refl

theorem Sound.runInOrder {order : List Nat} (sorted : r.Sorted order) (sound : r.Sound p)
    (done : r.runInOrder fs order p = .ok after) : r.Sound after := by
  refine foldlM_keeps order ?_ sound done
  intro before i mem next sound step
  split at step
  · cases step
    exact sound
  · obtain ⟨pre, later, rfl⟩ := append_of_mem mem
    have lt := sorted.length_le
    simp only [length_append, length_cons] at lt
    exact (sound.runWithRequired sorted (by omega) step).sound

end Midend.Registry

namespace Midend.Pipeline
variable {σ : Type} {p after : Pipeline σ} {outcome : Outcome}

theorem runRoots_sound {m : Module} {roots : List Nat} (done : p.runRoots m roots = .ok (outcome, after)) :
    ∀ pre run tl, outcome.runs = pre ++ run :: tl →
      ∃ pass, p.registry.passes[run.pass]? = some pass ∧ p.registry.Prepared pre pass.requires := by
  unfold runRoots at done
  split at done
  · cases done
  · rename_i order scheduled
    split at done
    · cases done
    · rename_i progress ran
      cases done
      have s0 : p.registry.Sound { graph := m.graph, memory := p.memory } := ⟨by simp, by simp⟩
      exact (s0.runInOrder (Registry.schedule_sorted scheduled).1 ran).runs

/-- Whenever a pass is run, each of its requirements has run in the same call, and what spoilt
one of them since its last run was needed by a requirement listed after it. So all of them are
current if those listed later need only passes that keep findings true. -/
theorem requirement_spoilt_only_by_later
    (ran : p.runWanted = .ok (outcome, after) ∨ ∃ name, p.runNamed name = .ok (outcome, after))
    (before rest : List PassRun) (run : PassRun) (split : outcome.runs = before ++ run :: rest) :
    ∃ pass, p.registry.passes[run.pass]? = some pass ∧
      ∀ earlier name later, pass.requires = earlier ++ name :: later →
        ∃ required since, p.registry.indexOf? name = some required ∧ Registry.Since before required since ∧
          ∀ other ∈ since, p.registry.Spoils other →
            ∃ next ∈ later, ∃ start, p.registry.indexOf? next = some start ∧ p.registry.Needs start other.pass := by
  rcases ran with ran | ⟨name, ran⟩
  · unfold runWanted at ran
    split at ran
    · cases ran
    · exact runRoots_sound ran before run rest split
  · unfold runNamed at ran
    split at ran
    · cases ran
    · split at ran
      · cases ran
      · exact runRoots_sound ran before run rest split

/-- An analysis, two transforms, and a pass that requires the analysis and the first of the
transforms, over one function. -/
def restless : Pipeline Transcript where
  registry := ⟨[.scripted 0 "Analysis" true 0 [], .scripted 1 "First" false 0 [true],
    .scripted 2 "Second" false 0 [true],
    ((Pass.scripted 3 "Last" true 0 []).requiring "Analysis").requiring "First"]⟩
  module := (Builder.createFunction "f" (.func [] .void) [] { name := "m" }).toOption.map (·.2)
  memory := { counts := [0, 0, 0, 0] }

def restlessRuns : List PassRun :=
  [⟨0, [(⟨0⟩, false)]⟩, ⟨1, [(⟨0⟩, true)]⟩, ⟨2, [(⟨0⟩, true)]⟩, ⟨0, [(⟨0⟩, false)]⟩, ⟨1, [(⟨0⟩, true)]⟩]

theorem restless_runWanted : ∃ after, restless.runWanted = .ok (⟨restlessRuns ++ [⟨3, [(⟨0⟩, false)]⟩]⟩, after) := by
  have runs : restless.runWanted.toOption.map (·.1) = some ⟨restlessRuns ++ [⟨3, [(⟨0⟩, false)]⟩]⟩ := by
    decide +kernel
  cases done : restless.runWanted with
  | error e =>
    rw [done] at runs
    cases runs
  | ok res =>
    rw [done] at runs
    exact ⟨res.2, congrArg (fun outcome => Except.ok (outcome, res.2)) (Option.some.inj runs)⟩

/-- The analysis runs once more, then the first transform does and changes the code, and then
comes the pass that requires both. -/
theorem analysis_spoilt_before_last : ∃ outcome after before run rest pass required since spoiler,
    restless.runWanted = .ok (outcome, after) ∧ outcome.runs = before ++ run :: rest ∧
      restless.registry.passes[run.pass]? = some pass ∧ "Analysis" ∈ pass.requires ∧
      restless.registry.indexOf? "Analysis" = some required ∧ Registry.Since before required since ∧
      spoiler ∈ since ∧ restless.registry.Spoils spoiler := by
  obtain ⟨after, ran⟩ := restless_runWanted
  have since : Registry.Since restlessRuns 0 [⟨1, [(⟨0⟩, true)]⟩] :=
    ⟨restlessRuns.take 3, ⟨0, [(⟨0⟩, false)]⟩, rfl, rfl, by decide⟩
  exact ⟨_, after, _, _, [], _, 0, _, ⟨1, [(⟨0⟩, true)]⟩, ran, rfl, rfl, by decide, by decide, since,
    by decide, rfl, _, rfl, rfl⟩

/-- What spoilt the analysis was needed by the requirement listed after it. -/
theorem analysis_spoilt_only_by_first : ∃ outcome after before run pass,
    restless.runWanted = .ok (outcome, after) ∧ outcome.runs = before ++ [run] ∧
      restless.registry.passes[run.pass]? = some pass ∧ pass.name = "Last" ∧
      ∀ earlier name later, pass.requires = earlier ++ name :: later →
        ∃ required since, restless.registry.indexOf? name = some required ∧ Registry.Since before required since ∧
          ∀ other ∈ since, restless.registry.Spoils other → ∃ next ∈ later, ∃ start,
            restless.registry.indexOf? next = some start ∧ restless.registry.Needs start other.pass := by
  obtain ⟨after, ran⟩ := restless_runWanted
  obtain ⟨pass, registered, stands⟩ :=
    requirement_spoilt_only_by_later (.inl ran) restlessRuns [] ⟨3, [(⟨0⟩, false)]⟩ rfl
  refine ⟨_, after, _, _, pass, ran, rfl, registered, ?_, stands⟩
  cases registered
  rfl

end Midend.Pipeline
