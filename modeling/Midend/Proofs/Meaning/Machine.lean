import Midend.Proofs.Flow.Execution
import Midend.Proofs.Meaning.Integers

/-! A machine that executes the code of a function. Instructions keep their results in registers,
stack slots and globals are cells of the memory. The machine is stuck where an instruction is
given what it cannot work with: a cell that holds nothing, words of different widths, a word
that does not fit a type, a divisor of zero. Calls are not executed. -/
namespace Midend

inductive Datum where
  | word (width : Nat) (bits : BitVec width)
  | address (cell : ValueId)
deriving DecidableEq

namespace Datum

def ofInt (width : Nat) (x : Int) : Datum := .word width (BitVec.ofInt width x)

def fits (ty : Option Ty) : Datum → Bool
  | .word width _ => ty.any fun ty => ty.bitWidth == some width
  | .address _ => false

def cell? : Datum → Option ValueId
  | .word _ _ => none
  | .address cell => some cell

def choice? : Datum → Option Bool
  | .word width bits => if width = 1 then some (bits.toNat != 0) else none
  | .address _ => none

def binary? (op : Opcode) : Datum → Datum → Option Datum
  | .word width a, .word width' b =>
    if same : width' = width then (op.compute? a (b.cast same)).map (.word width) else none
  | _, _ => none

def compare? (predicate : Predicate) : Datum → Datum → Option Datum
  | .word width a, .word width' b =>
    if same : width' = width then some (.word 1 (BitVec.ofBool (predicate.decide a (b.cast same))))
    else none
  | _, _ => none

def cast? (op : Opcode) (wanted : Nat) : Datum → Option Datum
  | .word _ a => (op.cast? a wanted).map (.word wanted)
  | .address _ => none

end Datum

/-- A state of the machine: what comes next, and what the registers and the memory hold. -/
structure Machine where
  block : ValueId
  index : Nat
  registers : ValueId → Option Datum
  memory : ValueId → Option Datum

namespace Machine

def put (m : Machine) (inst : ValueId) (result : Datum) : Machine :=
  { m with
    index := m.index + 1
    registers := fun v => if v = inst then some result else m.registers v }

def write (m : Machine) (cell : ValueId) (content : Option Datum) : Machine :=
  { m with memory := fun v => if v = cell then content else m.memory v }

def goto (m : Machine) (block : ValueId) : Machine := { m with block, index := 0 }

end Machine

inductive Effect where
  | goes (m : Machine)
  | returns (value : Option Datum) (memory : ValueId → Option Datum)
  | stuck

namespace Graph
variable (g : Graph) (args : List Datum)

def datum (m : Machine) (v : ValueId) : Option Datum :=
  match g.kind? v with
  | some (.constInt value) =>
    ((g.ty? v).bind Ty.bitWidth).map fun width => .ofInt width value.toInt
  | some (.argument index _) => args[index]?
  | some (.global _) => some (.address v)
  | some (.inst _) => m.registers v
  | _ => none

def result? (m : Machine) (inst : ValueId) (data : Inst) : Option Datum :=
  match data.opcode, data.attr, g.operandsOf inst with
  | .load, _, [some ptr] => (g.datum args m ptr).bind fun ptr => ptr.cell?.bind m.memory
  | .icmp, .icmp predicate, [some a, some b] =>
    (g.datum args m a).bind fun a => (g.datum args m b).bind (Datum.compare? predicate a)
  | op, _, [some a] =>
    (g.datum args m a).bind fun a => ((g.ty? inst).bind Ty.bitWidth).bind fun width => a.cast? op width
  | op, _, [some a, some b] =>
    (g.datum args m a).bind fun a => (g.datum args m b).bind (Datum.binary? op a)
  | _, _, _ => none

def stored? (m : Machine) (value ptr : ValueId) : Option (ValueId × Datum) :=
  (g.datum args m ptr).bind fun place => place.cell?.bind fun cell =>
    ((g.datum args m value).filter (·.fits ((g.ty? ptr).bind Ty.pointee?))).map (cell, ·)

def perform (m : Machine) (inst : ValueId) (data : Inst) : Effect :=
  match data.opcode, g.operandsOf inst with
  | .alloca, _ => .goes ((m.put inst (.address inst)).write inst none)
  | .store, [some value, some ptr] =>
    match g.stored? args m value ptr with
    | some (cell, content) => .goes { m.write cell (some content) with index := m.index + 1 }
    | none => .stuck
  | .jmp, [some target] => .goes (m.goto target)
  | .br, [some condition, some thenBlock, some elseBlock] =>
    match (g.datum args m condition).bind Datum.choice? with
    | some choice => .goes (m.goto (if choice then thenBlock else elseBlock))
    | none => .stuck
  | .ret, [] => .returns none m.memory
  | .ret, [some value] =>
    match g.datum args m value with
    | some result => .returns (some result) m.memory
    | none => .stuck
  | _, _ =>
    match (g.result? args m inst data).filter (·.fits (g.ty? inst)) with
    | some result => .goes (m.put inst result)
    | none => .stuck

def execute (m : Machine) : Effect :=
  match (g.code m.block)[m.index]? with
  | some inst =>
    match g.kind? inst with
    | some (.inst data) => g.perform args m inst data
    | _ => .stuck
  | none => .stuck

inductive Steps : Nat → Machine → Machine → Prop
  | refl (m : Machine) : Steps 0 m m
  | step {n : Nat} {m middle last : Machine} (first : g.execute args m = .goes middle)
      (rest : Steps n middle last) : Steps (n + 1) m last

def Halts (m : Machine) (effect : Effect) : Prop :=
  ∃ n last, g.Steps args n m last ∧ g.execute args last = effect ∧ ∀ next, effect ≠ .goes next

def Endless (m : Machine) : Prop := ∀ n, ∃ last, g.Steps args n m last

def called (func : ValueId) (memory : ValueId → Option Datum) : Option Machine :=
  (g.layout func).head?.map fun entry => ⟨entry, 0, fun _ => none, memory⟩

section Call
variable (func : ValueId) (memory : ValueId → Option Datum)

def Returns (value : Option Datum) (memory' : ValueId → Option Datum) : Prop :=
  ∃ start, g.called func memory = some start ∧ g.Halts args start (.returns value memory')

def Sticks : Prop := ∃ start, g.called func memory = some start ∧ g.Halts args start .stuck

def Diverges : Prop := ∃ start, g.called func memory = some start ∧ g.Endless args start

end Call

variable {g args} {m mid last : Machine} {n k : Nat} {effect effect' : Effect}

theorem Steps.trans (first : g.Steps args n m mid) (second : g.Steps args k mid last) :
    g.Steps args (n + k) m last := by
  induction first with
  | refl m =>
    rw [Nat.zero_add]
    exact second
  | step taken _ ih =>
    rw [Nat.succ_add]
    exact .step taken (ih second)

theorem Steps.one (taken : g.execute args m = .goes last) : g.Steps args 1 m last :=
  .step taken (.refl last)

theorem Steps.split (short : g.Steps args n m mid) (lt : n ≤ k)
    (long : g.Steps args k m last) : g.Steps args (k - n) mid last := by
  induction short generalizing k with
  | refl m => exact long
  | step taken _ ih =>
    cases long with
    | refl => exact absurd lt (Nat.not_succ_le_zero _)
    | step taken' tl =>
      obtain rfl := Effect.goes.inj (taken.symm.trans taken')
      rw [Nat.succ_sub_succ]
      exact ih (Nat.le_of_succ_le_succ lt) tl

theorem Steps.take (steps : g.Steps args n m last) (lt : k ≤ n) : ∃ mid, g.Steps args k m mid := by
  induction steps generalizing k with
  | refl m =>
    obtain rfl := Nat.le_zero.1 lt
    exact ⟨m, .refl m⟩
  | step taken _ ih =>
    cases k with
    | zero => exact ⟨_, .refl _⟩
    | succ k =>
      obtain ⟨mid, tl⟩ := ih (Nat.le_of_succ_le_succ lt)
      exact ⟨mid, .step taken tl⟩

theorem Steps.halts (steps : g.Steps args n m mid) (halts : g.Halts args mid effect) : g.Halts args m effect := by
  obtain ⟨k, last, more, ends, final⟩ := halts
  exact ⟨n + k, last, steps.trans more, ends, final⟩

theorem halts_of_execute (ends : g.execute args m = effect) (final : ∀ next, effect ≠ .goes next) :
    g.Halts args m effect :=
  ⟨0, m, .refl m, ends, final⟩

private theorem Steps.le_of_stops {last' : Machine} (steps : g.Steps args n m last)
    (stops : ∀ next, g.execute args last ≠ .goes next) (more : g.Steps args k m last') : k ≤ n := by
  by_contra longer
  have tl := steps.split (Nat.le_of_lt (Nat.not_le.1 longer)) more
  cases count : k - n with
  | zero => omega
  | succ left =>
    rw [count] at tl
    cases tl with
    | step taken _ => exact stops _ taken

theorem Halts.unique (halts : g.Halts args m effect) (halts' : g.Halts args m effect') : effect = effect' := by
  obtain ⟨n, last, steps, rfl, stops⟩ := halts
  obtain ⟨k, last', steps', rfl, stops'⟩ := halts'
  obtain rfl : n = k := Nat.le_antisymm (steps'.le_of_stops stops' steps) (steps.le_of_stops stops steps')
  have eq := steps.split (Nat.le_refl n) steps'
  rw [Nat.sub_self] at eq
  cases eq
  rfl

theorem Halts.not_endless (halts : g.Halts args m effect) : ¬ g.Endless args m := by
  intro endless
  obtain ⟨n, last, steps, rfl, stops⟩ := halts
  obtain ⟨last', more⟩ := endless (n + 1)
  exact absurd (steps.le_of_stops stops more) (Nat.not_succ_le_self n)

end Graph
end Midend
