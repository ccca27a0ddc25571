import Midend.Lower.Program
import Midend.Pass.Schedule

/-! Running passes over a module. Before a pass runs, those of the passes it requires whose
findings are no longer true of the code are run again, in the order in which it lists them. -/
namespace Midend

structure PassRun where
  pass : Nat
  results : List (ValueId × Bool)
deriving DecidableEq, Repr

def PassRun.changed (run : PassRun) : Bool := run.results.any (·.2)

structure Progress (σ : Type) where
  graph : Graph
  memory : σ
  fresh : List Nat := []
  runs : List PassRun := []

structure Outcome where
  runs : List PassRun
deriving DecidableEq, Repr

def Outcome.changed (o : Outcome) : Bool := o.runs.any PassRun.changed

inductive RunError where
  | pass (e : PassError)
  | fault (f : Fault)
deriving DecidableEq, Repr

namespace Registry
variable {σ : Type}

def runOver (pass : Pass σ) : List ValueId → Graph × σ →
    Except Fault (List (ValueId × Bool) × Graph × σ)
  | [], state => return ([], state)
  | func :: rest, state => do
    let (changed, state) ← pass.run func state
    let (results, state) ← runOver pass rest state
    return ((func, changed) :: results, state)

def runPass (functions : List ValueId) (index : Nat) (pass : Pass σ) (p : Progress σ) :
    Except Fault (Progress σ) := do
  let (results, graph, memory) ← runOver pass functions (p.graph, p.memory)
  let run : PassRun := ⟨index, results⟩
  let fresh := if run.changed && !pass.preserves then [] else p.fresh
  return { graph, memory, fresh := index :: fresh, runs := p.runs ++ [run] }

/-- Runs a pass, and before it those of its requirements whose findings are not true of
the code. Requirements have no cycle, so fuel for each registered pass is enough. -/
def runWithRequired (r : Registry σ) (functions : List ValueId) (fuel index : Nat)
    (p : Progress σ) : Except Fault (Progress σ) :=
  match fuel, r.passes[index]? with
  | fuel + 1, some pass => do
    let p ← pass.requires.foldlM
      (fun p name =>
        match r.indexOf? name with
        | some required =>
          if required ∈ p.fresh then return p
          else r.runWithRequired functions fuel required p
        | none => return p) p
    runPass functions index pass p
  | _, _ => return p
termination_by structural fuel

def runInOrder (r : Registry σ) (functions : List ValueId) (order : List Nat) (p : Progress σ) :
    Except Fault (Progress σ) :=
  order.foldlM
    (fun p index =>
      if index ∈ p.fresh then return p
      else r.runWithRequired functions r.passes.length index p) p

end Registry

structure Pipeline (σ : Type) where
  registry : Registry σ := {}
  module : Option Module := none
  level : UInt8 := 1
  memory : σ

namespace Pipeline
variable {σ : Type}

def register (p : Pipeline σ) (pass : Pass σ) : Pipeline σ :=
  { p with registry := p.registry.register pass }

def registerBuiltin (p : Pipeline σ) : Pipeline σ := Pass.builtin.foldl register p

def schedule (p : Pipeline σ) : Except PassError (List Nat) :=
  p.registry.schedule (p.registry.enabled p.level)

def scheduleNames (p : Pipeline σ) : Except PassError (List String) := do
  return (← p.schedule).filterMap fun index => p.registry.passes[index]?.map (·.name)

def runRoots (p : Pipeline σ) (m : Module) (roots : List Nat) :
    Except RunError (Outcome × Pipeline σ) :=
  match p.registry.schedule roots with
  | .error e => .error (.pass e)
  | .ok order =>
    match p.registry.runInOrder m.functions order { graph := m.graph, memory := p.memory } with
    | .error f => .error (.fault f)
    | .ok progress =>
      .ok (⟨progress.runs⟩,
        { p with module := some { m with graph := progress.graph }, memory := progress.memory })

def runWanted (p : Pipeline σ) : Except RunError (Outcome × Pipeline σ) :=
  match p.module with
  | none => .error (.pass .noModule)
  | some m => p.runRoots m (p.registry.enabled p.level)

def runNamed (p : Pipeline σ) (name : String) : Except RunError (Outcome × Pipeline σ) :=
  match p.module with
  | none => .error (.pass .noModule)
  | some m =>
    match p.registry.indexOf? name with
    | none => .error (.pass (.unknownPass name))
    | some index => p.runRoots m [index]

end Pipeline

def Module.optimize (m : Module) (level : UInt8) : Except RunError Module := do
  let p : Pipeline Unit := { module := some m, level, memory := () }
  let (_, p) ← p.registerBuiltin.runWanted
  match p.module with
  | some m => return m
  | none => throw (.pass .noModule)

end Midend
