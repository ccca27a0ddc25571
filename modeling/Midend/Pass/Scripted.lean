import Midend.Pass.Basic

/-! Passes that leave the code alone and answer from a script, for trying out pipelines.
They note every call in a transcript. -/
namespace Midend

structure ScriptedCall where
  pass : String
  function : String
  answer : Bool
deriving DecidableEq, Repr

structure Transcript where
  calls : List ScriptedCall := []
  counts : List Nat := []
deriving DecidableEq, Repr, Inhabited

namespace Transcript

def count (t : Transcript) (number : Nat) : Nat := t.counts[number]?.getD 0

def enrol (t : Transcript) : Nat × Transcript :=
  (t.counts.length, { t with counts := t.counts ++ [0] })

def note (t : Transcript) (number : Nat) (call : ScriptedCall) : Transcript where
  calls := t.calls ++ [call]
  counts := t.counts.modify number (· + 1)

def cleared (t : Transcript) : Transcript := { t with calls := [] }

end Transcript

/-- The answer of a scripted pass to its `n`-th call. The last answer is repeated for ever,
and a script without answers always says no. -/
def scriptedAnswer (answers : List Bool) (n : Nat) : Bool :=
  (answers[n]?.or answers.getLast?).getD false

def Pass.scripted (number : Nat) (name : String) (preserves : Bool) (level : UInt8)
    (answers : List Bool) : Pass Transcript where
  name
  preserves
  level
  run func state := do
    let (graph, transcript) := state
    let answer := scriptedAnswer answers (transcript.count number)
    let function := (← graph.function func).name
    return (answer, graph, transcript.note number ⟨name, function, answer⟩)

end Midend
