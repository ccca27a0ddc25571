import Midend.Pass.Pipeline
import Midend.Proofs.Flow.Passes

/-! Pipelines of the passes that come with the library. Whatever they are asked to run, the
functions of the module stay in order: blocks are merged only where the derived edges have just
been computed. -/
namespace Midend
open List
open Midend.Graph
variable {σ : Type} {g : Graph} {fs gs : List ValueId}

namespace Graph.Orderly
variable {funcs : List ValueId}

private theorem runOver_blockCalculate (orderly : g.Orderly fs gs) (memory : σ) (isIn : funcs ⊆ fs) :
    ∃ rs t, Registry.runOver Pass.blockCalculate funcs (g, memory) = .ok (rs, t, memory) ∧
      t.Orderly fs gs ∧ (∀ f ∈ fs, g.Edged f → t.Edged f) ∧
      (∀ f ∈ funcs, t.Edged f) ∧ ∀ f ∈ fs, Prunes f g t := by
  induction funcs generalizing g with
  | nil => exact ⟨[], g, rfl, orderly, fun _ _ edged => edged, by simp, fun f _ => .refl f g⟩
  | cons f tl ih =>
    have mem : f ∈ fs := isIn mem_cons_self
    obtain ⟨mid, computed, orderly, edged, kept, prunes⟩ := orderly.computeEdges mem
    obtain ⟨rs, t, done, orderly, kept', edged', prunes'⟩ := ih orderly fun other into =>
      isIn (mem_cons_of_mem _ into)
    refine ⟨(f, false) :: rs, t, ?_, orderly, fun other into old =>
      kept' other into (kept other into old), ?_, fun other into => (prunes other into).trans (prunes' other into)⟩
    · refine bind_eq_ok.2 ⟨(false, mid, memory), bind_eq_ok.2 ⟨mid, computed, rfl⟩, ?_⟩
      exact bind_eq_ok.2 ⟨(rs, t, memory), done, rfl⟩
    · intro other into
      rcases mem_cons.1 into with rfl | later
      · exact kept' other mem edged
      · exact edged' other later

private theorem runOver_blockMerge (orderly : g.Orderly fs gs) (memory : σ) (isIn : funcs ⊆ fs)
    (nodup : funcs.Nodup) (edged : ∀ f ∈ funcs, g.Edged f) :
    ∃ rs t, Registry.runOver Pass.blockMerge funcs (g, memory) = .ok (rs, t, memory) ∧
      t.Orderly fs gs ∧ (∀ f ∈ funcs, t.Pruned f) ∧ ∀ f ∈ fs, Prunes f g t := by
  induction funcs generalizing g with
  | nil => exact ⟨[], g, rfl, orderly, by simp, fun f _ => .refl f g⟩
  | cons f tl ih =>
    have mem : f ∈ fs := isIn mem_cons_self
    obtain ⟨outside, nodup⟩ := nodup_cons.1 nodup
    obtain ⟨upd, mid, hm, orderly, kept, pruned, prunes⟩ := orderly.mergeBlocks mem (edged f mem_cons_self)
    have edged' : ∀ other ∈ tl, mid.Edged other := by
      intro other later
      refine kept other (isIn (mem_cons_of_mem _ later)) ?_ (edged other (mem_cons_of_mem _ later))
      exact fun eq => outside (eq ▸ later)
    obtain ⟨rs, t, done, orderly, pruned', prunes'⟩ := ih orderly
      (fun other into => isIn (mem_cons_of_mem _ into)) nodup edged'
    refine ⟨(f, upd) :: rs, t, ?_, orderly, ?_, fun other into =>
      (prunes other into).trans (prunes' other into)⟩
    · refine bind_eq_ok.2 ⟨(upd, mid, memory), bind_eq_ok.2 ⟨(upd, mid), hm, rfl⟩, ?_⟩
      exact bind_eq_ok.2 ⟨(rs, t, memory), done, rfl⟩
    · intro other into
      rcases mem_cons.1 into with rfl | later
      · exact (prunes' other mem).pruned pruned
      · exact pruned' other later

end Graph.Orderly

structure Module.Prunes (m after : Module) : Prop where
  functions : after.functions = m.functions
  globals : after.globals = m.globals
  graph : ∀ func ∈ m.functions, Graph.Prunes func m.graph after.graph

theorem Module.Prunes.refl (m : Module) : m.Prunes m :=
  ⟨rfl, rfl, fun f _ => .refl f m.graph⟩

theorem Module.Prunes.trans {m mid t : Module} (first : m.Prunes mid) (second : mid.Prunes t) :
    m.Prunes t where
  functions := second.functions.trans first.functions
  globals := second.globals.trans first.globals
  graph fn mem := (first.graph fn mem).trans (second.graph fn (first.functions ▸ mem))

namespace Registry
variable {p : Progress σ}

def library : Registry σ := ⟨Pass.builtin⟩

private theorem library_enabled (level : UInt8) : (library : Registry σ).enabled level = if 1 ≤ level then [0, 1] else [0] := by
  rw [enabled, library, Pass.builtin]
  by_cases wanted : 1 ≤ level <;> simp [List.zipIdx, Pass.blockCalculate, Pass.blockMerge, wanted]

private theorem library_indexOf? {n : String} {i : Nat} (hit : (library : Registry σ).indexOf? n = some i) :
    i = 0 ∨ i = 1 := by
  have lt := (findIdx?_eq_some_iff_getElem.1 hit).1
  simp only [library, Pass.builtin, length_cons, length_nil] at lt
  omega

private theorem library_schedule {roots : List Nat} (asked : roots = [0] ∨ roots = [1] ∨ roots = [0, 1]) :
    ∃ order, (library : Registry σ).schedule roots = .ok order ∧ (order = [0] ∨ order = [0, 1]) ∧
      (1 ∈ roots → order = [0, 1]) := by
  rcases asked with rfl | rfl | rfl
  · exact ⟨[0], rfl, .inl rfl, by simp⟩
  · exact ⟨[0, 1], rfl, .inr rfl, fun _ => rfl⟩
  · exact ⟨[0, 1], rfl, .inr rfl, fun _ => rfl⟩

private theorem library_runEdges (orderly : p.graph.Orderly fs gs) (blank : p.fresh = []) :
    ∃ t, library.runWithRequired fs 2 0 p = .ok t ∧ t.graph.Orderly fs gs ∧
      t.fresh = [0] ∧ (∀ f ∈ fs, t.graph.Edged f) ∧
      ∀ f ∈ fs, Prunes f p.graph t.graph := by
  obtain ⟨rs, edges, computed, orderly, _, edged, prunes⟩ :=
    orderly.runOver_blockCalculate p.memory (List.Subset.refl fs)
  refine ⟨_, bind_eq_ok.2 ⟨p, rfl, bind_eq_ok.2 ⟨(rs, edges, p.memory), computed, rfl⟩⟩, orderly, ?_, edged, prunes⟩
  simp [blank]

private theorem library_runMerge (orderly : p.graph.Orderly fs gs) (fresh : 0 ∈ p.fresh)
    (edged : ∀ f ∈ fs, p.graph.Edged f) :
    ∃ t, library.runWithRequired fs 2 1 p = .ok t ∧ t.graph.Orderly fs gs ∧
      (∀ f ∈ fs, t.graph.Pruned f) ∧ ∀ f ∈ fs, Prunes f p.graph t.graph := by
  obtain ⟨rs, hm, done, orderly, pruned, prunes⟩ :=
    orderly.runOver_blockMerge p.memory (List.Subset.refl fs) orderly.nodup edged
  refine ⟨_, bind_eq_ok.2 ⟨p, ?_, bind_eq_ok.2 ⟨(rs, hm, p.memory), done, rfl⟩⟩, orderly, pruned, prunes⟩
  exact bind_eq_ok.2 ⟨p, if_pos fresh, rfl⟩

private theorem library_runInOrder {p : Progress σ} {order : List Nat} (orderly : p.graph.Orderly fs gs)
    (blank : p.fresh = []) (ord : order = [0] ∨ order = [0, 1]) :
    ∃ t, library.runInOrder fs order p = .ok t ∧ t.graph.Orderly fs gs ∧
      (order = [0, 1] → ∀ f ∈ fs, t.graph.Pruned f) ∧
      ∀ f ∈ fs, Prunes f p.graph t.graph := by
  obtain ⟨edges, computed, orderly, fresh, edged, prunes⟩ := library_runEdges orderly blank
  have first : (if 0 ∈ p.fresh then .ok p else library.runWithRequired fs 2 0 p) = .ok edges := by
    rw [if_neg (by simp [blank]), computed]
  rcases ord with rfl | rfl
  · exact ⟨edges, bind_eq_ok.2 ⟨edges, first, rfl⟩, orderly, nofun, prunes⟩
  · obtain ⟨hm, done, orderly', pruned, prunes'⟩ := library_runMerge orderly (by simp [fresh]) edged
    have next : ¬ 1 ∈ edges.fresh := by simp [fresh]
    exact ⟨hm, bind_eq_ok.2 ⟨edges, first, bind_eq_ok.2 ⟨hm, (if_neg next).trans done, rfl⟩⟩, orderly',
      fun _ => pruned, fun f mem => (prunes f mem).trans (prunes' f mem)⟩

end Registry

namespace Pipeline
variable {p q : Pipeline σ} {m : Module}

inductive Step (p q : Pipeline σ) : Prop
  | level (level : UInt8) (set : q = { p with level })
  | wanted {outcome : Outcome} (done : p.runWanted = .ok (outcome, q))
  | named {name : String} {outcome : Outcome} (done : p.runNamed name = .ok (outcome, q))

def Steps : Pipeline σ → Pipeline σ → Prop := Relation.ReflTransGen Step

/-- A pipeline of the passes that come with the library, and its module, the functions of which are in
order. -/
structure Holds (p : Pipeline σ) (m : Module) : Prop where
  library : p.registry = Registry.library
  module : p.module = some m
  orderly : m.graph.Orderly m.functions m.globals

theorem registry_registerBuiltin (p : Pipeline σ) (blank : p.registry = {}) :
    p.registerBuiltin.registry = Registry.library := by
  simp only [registerBuiltin, register, Pass.builtin, List.foldl, blank]
  rfl

namespace Holds

theorem runRoots {roots : List Nat} (h : p.Holds m) (asked : roots = [0] ∨ roots = [1] ∨ roots = [0, 1]) :
    ∃ outcome q t, p.runRoots m roots = .ok (outcome, q) ∧ q.Holds t ∧ m.Prunes t ∧
      (1 ∈ roots → ∀ f ∈ m.functions, t.graph.Pruned f) := by
  obtain ⟨order, scheduled, ord, both⟩ := @Registry.library_schedule σ _ asked
  obtain ⟨last, ran, orderly, pruned, prunes⟩ := @Registry.library_runInOrder σ m.functions m.globals
    { graph := m.graph, memory := p.memory } order h.orderly rfl ord
  rw [← h.library] at scheduled ran
  refine ⟨⟨last.runs⟩, { p with module := some { m with graph := last.graph }, memory := last.memory },
    { m with graph := last.graph }, ?_, ⟨h.library, rfl, orderly⟩, ⟨rfl, rfl, prunes⟩, fun asked => pruned (both asked)⟩
  simp only [Pipeline.runRoots, scheduled, ran]

/-- The wanted passes succeed, and from level 1 on prune every function. -/
theorem runWanted (h : p.Holds m) :
    ∃ outcome q t, p.runWanted = .ok (outcome, q) ∧ q.Holds t ∧ m.Prunes t ∧
      (1 ≤ p.level → ∀ f ∈ m.functions, t.graph.Pruned f) := by
  have enabled : p.registry.enabled p.level = if 1 ≤ p.level then [0, 1] else [0] := by
    rw [h.library, Registry.library_enabled]
  have asked : p.registry.enabled p.level = [0] ∨ p.registry.enabled p.level = [1] ∨ p.registry.enabled p.level = [0, 1] := by
    rw [enabled]
    split
    · exact .inr (.inr rfl)
    · exact .inl rfl
  obtain ⟨outcome, q, t, ran, kept, prunes, pruned⟩ := h.runRoots asked
  refine ⟨outcome, q, t, ?_, kept, prunes, fun wanted => pruned (by simp [enabled, wanted])⟩
  rw [Pipeline.runWanted, h.module]
  exact ran

theorem runNamed (h : p.Holds m) {n : String} {outcome : Outcome} (done : p.runNamed n = .ok (outcome, q)) :
    ∃ t, q.Holds t ∧ m.Prunes t := by
  rw [Pipeline.runNamed, h.module] at done
  cases hit : p.registry.indexOf? n with
  | none =>
    simp only [hit] at done
    cases done
  | some i =>
    simp only [hit] at done
    rw [h.library] at hit
    have asked : [i] = [0] ∨ [i] = [1] ∨ [i] = [0, 1] := by
      rcases Registry.library_indexOf? hit with rfl | rfl
      · exact .inl rfl
      · exact .inr (.inl rfl)
    obtain ⟨_, _, t, ran, kept, prunes, _⟩ := h.runRoots asked
    cases ran.symm.trans done
    exact ⟨t, kept, prunes⟩

theorem step (h : p.Holds m) (step : Step p q) : ∃ t, q.Holds t ∧ m.Prunes t := by
  cases step with
  | level level set => exact ⟨m, set ▸ ⟨h.library, h.module, h.orderly⟩, .refl m⟩
  | wanted done =>
    obtain ⟨_, _, t, ran, kept, prunes, _⟩ := h.runWanted
    cases ran.symm.trans done
    exact ⟨t, kept, prunes⟩
  | named done => exact h.runNamed done

theorem steps (h : p.Holds m) (steps : Steps p q) : ∃ t, q.Holds t ∧ m.Prunes t := by
  induction steps with
  | refl => exact ⟨m, h, .refl m⟩
  | tail _ step ih =>
    obtain ⟨mid, held, prunes⟩ := ih
    obtain ⟨t, held, prunes'⟩ := held.step step
    exact ⟨t, held, prunes.trans prunes'⟩

end Holds
end Pipeline
end Midend
