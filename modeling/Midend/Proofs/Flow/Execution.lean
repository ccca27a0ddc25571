import Midend.Proofs.Graph.Operands

/-! Execution of a function as far as control flow goes: which instructions are executed,
given what is decided at every branch. Jumps are passed over silently. -/
namespace Midend
open List

namespace Kind

def insts : Kind → List ValueId
  | .block data => data.insts
  | _ => []

def preds : Kind → List ValueId
  | .block data => data.preds
  | _ => []

def succs : Kind → List ValueId
  | .block data => data.succs
  | _ => []

def attr? : Kind → Option Attr
  | .inst data => some data.attr
  | _ => none

end Kind

namespace Graph
variable {t g mid : Graph} {i entry v b : ValueId} {within : List ValueId → Prop} {op : Opcode}

def code (g : Graph) (block : ValueId) : List ValueId := ((g.kind? block).map Kind.insts).getD []

def layout (g : Graph) (func : ValueId) : List ValueId := (g.operandsOf func).filterMap id

def next? (g : Graph) (inst : ValueId) (choice : Bool) : Option ValueId :=
  match g.opcode? inst, g.branchTargets inst with
  | some .jmp, .ok targets => targets[0]?
  | some .br, .ok targets => if choice then targets[0]? else targets[1]?
  | _, _ => none

/-- One step, where `rest` is what is left of the current block: the instruction executed,
unless it is a jump, the choices that are left, and what is left then. Each branch uses up one
choice. -/
def step (g : Graph) (choices : Nat → Bool) (rest : List ValueId) :
    Option (Option ValueId × (Nat → Bool) × List ValueId) :=
  match rest with
  | [] => none
  | inst :: rest =>
    match g.opcode? inst with
    | some .jmp => (g.next? inst true).map fun block => (none, choices, g.code block)
    | some .br =>
      some (some inst, fun n => choices (n + 1), ((g.next? inst (choices 0)).map g.code).getD [])
    | some .ret => some (some inst, choices, [])
    | _ => some (some inst, choices, rest)

def executed (g : Graph) : (steps : Nat) → (choices : Nat → Bool) → (rest : List ValueId) →
    List ValueId
  | 0, _, _ => []
  | steps + 1, choices, rest =>
    match g.step choices rest with
    | some (inst, choices, rest) => inst.toList ++ g.executed steps choices rest
    | none => []

/-- An instruction is the one executed at a position of the run from a block. -/
def Executes (g : Graph) (entry : ValueId) (choices : Nat → Bool) (position : Nat)
    (inst : ValueId) : Prop :=
  ∃ steps, (g.executed steps choices (g.code entry))[position]? = some inst

def attr? (g : Graph) (inst : ValueId) : Option Attr := (g.kind? inst).bind Kind.attr?

def isBlock (g : Graph) (v : ValueId) : Bool := (g.kind? v).any Kind.isBlock

def dataOperands (g : Graph) (inst : ValueId) : List (Option ValueId) :=
  (g.operandsOf inst).filter fun target => !target.any g.isBlock

/-- An instruction is the same in two graphs, except for blocks among its operands. -/
structure SameInst (g after : Graph) (inst : ValueId) : Prop where
  opcode : after.opcode? inst = g.opcode? inst
  ty : after.ty? inst = g.ty? inst
  attr : after.attr? inst = g.attr? inst
  operands : after.dataOperands inst = g.dataOperands inst

theorem SameInst.trans (first : g.SameInst mid i) (second : mid.SameInst t i) : g.SameInst t i :=
  ⟨second.opcode.trans first.opcode, second.ty.trans first.ty, second.attr.trans first.attr,
    second.operands.trans first.operands⟩

structure SameRuns (g after : Graph) (entry : ValueId) : Prop where
  executes : ∀ choices position inst,
    g.Executes entry choices position inst ↔ after.Executes entry choices position inst
  same : ∀ choices position inst, g.Executes entry choices position inst → g.SameInst after inst

theorem SameRuns.refl (g : Graph) (entry : ValueId) : g.SameRuns g entry :=
  ⟨fun _ _ _ => Iff.rfl, fun _ _ _ _ => ⟨rfl, rfl, rfl, rfl⟩⟩

theorem SameRuns.trans (first : g.SameRuns mid entry) (second : mid.SameRuns t entry) :
    g.SameRuns t entry :=
  ⟨fun choices pos i =>
      (first.executes choices pos i).trans (second.executes choices pos i),
    fun choices pos i done => (first.same choices pos i done).trans
      (second.same choices pos i ((first.executes choices pos i).1 done))⟩

theorem executed_succ (g : Graph) (steps : Nat) (choices : Nat → Bool) (tl : List ValueId) :
    g.executed steps choices tl <+: g.executed (steps + 1) choices tl := by
  induction steps generalizing choices tl with
  | zero => exact nil_prefix
  | succ steps ih =>
    rw [executed, executed]
    split
    · exact prefix_append_right_inj _ |>.2 (ih ..)
    · exact prefix_rfl

/-- A second graph in which every step of the first is taken from the corresponding place,
except that the first may also take steps that stay at one place of the second. Of the latter
there are never two in a row. -/
structure Follows (g after : Graph) (place : List ValueId → List ValueId)
    (within silent : List ValueId → Prop) : Prop where
  skip : ∀ choices rest, within rest → silent rest → ∃ next,
    g.step choices rest = some (none, choices, next) ∧ within next ∧ ¬ silent next ∧
      place next = place rest
  step : ∀ choices rest, within rest → ¬ silent rest →
    after.step choices (place rest) =
      (g.step choices rest).map fun result => (result.1, result.2.1, place result.2.2)
  stays : ∀ choices rest inst left next, within rest →
    g.step choices rest = some (inst, left, next) → within next

namespace Follows
variable {g t : Graph} {place : List ValueId → List ValueId}
  {within silent : List ValueId → Prop}
variable {tl : List ValueId}

private theorem advance (follows : g.Follows t place within silent) {steps more : Nat}
    {choices : Nat → Bool} {tl : List ValueId} (into : within tl) (moves : ¬ silent tl) :
    (∃ i left next, within next ∧ g.executed (steps + 1) choices tl = i ++ g.executed steps left next ∧
        t.executed (more + 1) choices (place tl) = i ++ t.executed more left (place next)) ∨
      g.executed (steps + 1) choices tl = [] ∧ t.executed (more + 1) choices (place tl) = [] := by
  rw [executed, executed, follows.step choices tl into moves]
  cases taken : g.step choices tl with
  | none => exact .inr ⟨rfl, rfl⟩
  | some res =>
    obtain ⟨i, left, next⟩ := res
    exact .inl ⟨i.toList, left, next, follows.stays _ _ _ _ _ into taken, rfl, rfl⟩

theorem executed_isPrefix (follows : g.Follows t place within silent) (steps : Nat) (choices : Nat → Bool)
    (into : within tl) : g.executed steps choices tl <+: t.executed steps choices (place tl) := by
  induction steps generalizing choices tl with
  | zero => exact nil_prefix
  | succ steps ih =>
    by_cases quiet : silent tl
    · obtain ⟨next, taken, within, _, eq⟩ := follows.skip choices tl into quiet
      rw [executed, taken, ← eq]
      exact (ih choices within).trans (t.executed_succ ..)
    · obtain ⟨i, left, next, within, here, there⟩ | ⟨here, _⟩ :=
        @advance _ _ _ _ _ follows steps steps choices tl into quiet
      · rw [here, there]
        exact (prefix_append_right_inj _).2 (ih left within)
      · rw [here]
        exact nil_prefix

private theorem prefix_executed (follows : g.Follows t place within silent) (steps : Nat) (choices : Nat → Bool)
    (into : within tl) : t.executed steps choices (place tl) <+: g.executed (2 * steps) choices tl := by
  induction steps generalizing choices tl with
  | zero => exact nil_prefix
  | succ steps ih =>
    have moving : ∀ {tl}, within tl → ¬ silent tl →
        t.executed (steps + 1) choices (place tl) <+: g.executed (2 * steps + 1) choices tl := by
      intro tl into moves
      obtain ⟨i, left, next, within, here, there⟩ | ⟨_, there⟩ :=
        @advance _ _ _ _ _ follows (2 * steps) steps choices tl into moves
      · rw [here, there]
        exact (prefix_append_right_inj _).2 (ih left within)
      · rw [there]
        exact nil_prefix
    by_cases quiet : silent tl
    · obtain ⟨next, taken, within, moves, eq⟩ := follows.skip choices tl into quiet
      have skipped : g.executed (2 * (steps + 1)) choices tl = g.executed (2 * steps + 1) choices next := by
        rw [Nat.mul_succ, executed, taken]
        rfl
      rw [skipped, ← eq]
      exact moving within moves
    · exact (moving into quiet).trans (g.executed_succ ..)

end Follows

theorem forall_executed {P : ValueId → Prop} (each : ∀ choices tl i left next, within tl →
      g.step choices tl = some (i, left, next) → within next ∧ ∀ v ∈ i, P v) (steps : Nat)
    (choices : Nat → Bool) {tl : List ValueId} (into : within tl) : ∀ v ∈ g.executed steps choices tl, P v := by
  induction steps generalizing choices tl with
  | zero => simp [executed]
  | succ steps ih =>
    intro v mem
    rw [executed] at mem
    split at mem
    next i left next taken =>
      obtain ⟨stays, h⟩ := each _ _ _ _ _ into taken
      rcases mem_append.1 mem with emitted | later
      · exact h v (Option.mem_toList.1 emitted)
      · exact ih left stays v later
    next => cases mem

theorem getElem?_of_isPrefix {short long : List ValueId} (isPrefix : short <+: long) {pos : Nat}
    (hit : short[pos]? = some v) : long[pos]? = some v := by
  obtain ⟨more, rfl⟩ := isPrefix
  rw [List.getElem?_append_left (List.getElem?_eq_some_iff.1 hit).1, hit]

/-- Graphs that follow each other run alike. -/
theorem Follows.sameRuns {place : List ValueId → List ValueId} {silent : List ValueId → Prop}
    (follows : g.Follows t place within silent) (s0 : within (g.code entry))
    (aligned : place (g.code entry) = t.code entry) (eq : ∀ choices tl i left next, within tl →
      g.step choices tl = some (some i, left, next) → g.SameInst t i) : g.SameRuns t entry := by
  refine ⟨?_, ?_⟩
  · intro choices pos i
    constructor
    · rintro ⟨steps, hit⟩
      exact ⟨steps, aligned ▸ getElem?_of_isPrefix (follows.executed_isPrefix steps choices s0) hit⟩
    · rintro ⟨steps, hit⟩
      rw [← aligned] at hit
      exact ⟨_, getElem?_of_isPrefix (follows.prefix_executed steps choices s0) hit⟩
  · rintro choices pos i ⟨steps, hit⟩
    refine forall_executed (P := g.SameInst t) ?_ steps choices s0 i (mem_of_getElem? hit)
    intro choices tl i left next into taken
    refine ⟨follows.stays _ _ _ _ _ into taken, ?_⟩
    rintro v rfl
    exact eq _ _ _ _ _ into taken

def targetsOf (g : Graph) (inst : ValueId) : List ValueId :=
  match g.opcode? inst with
  | some .jmp => (g.operandsOf inst).filterMap id
  | some .br => ((g.operandsOf inst).drop 1).filterMap id
  | _ => []

theorem code_of_kind? {d : Block} (hit : g.kind? b = some (.block d)) : g.code b = d.insts := by
  rw [code, hit]
  rfl

theorem opcode?_eq {d : Inst} (hit : g.kind? i = some (.inst d)) : g.opcode? i = some d.opcode := by
  simp [opcode?, hit, Kind.opcode?]

theorem inst_of_opcode? (hit : g.opcode? v = some op) : ∃ d, g.kind? v = some (.inst d) ∧ d.opcode = op := by
  obtain ⟨k, read, isOp⟩ := Option.bind_eq_some_iff.1 hit
  cases k with
  | inst d => exact ⟨d, read, Option.some.inj isOp⟩
  | _ => cases isOp

theorem block_of_isBlock (hb : g.isBlock v) : ∃ d, g.kind? v = some (.block d) := by
  obtain ⟨k, read, hb⟩ := (Option.any_eq_true _ _).1 hb
  cases k with
  | block d => exact ⟨d, read⟩
  | _ => cases hb

theorem lt_of_isBlock (hb : g.isBlock v) : v.index < g.values.size :=
  lt_of_kind? (block_of_isBlock hb).choose_spec

theorem lt_of_opcode? (hit : g.opcode? i = some op) : i.index < g.values.size := by
  obtain ⟨d, read, _⟩ := inst_of_opcode? hit
  exact lt_of_kind? read

theorem opcode?_of_isTerminator (last : g.isTerminator i) : ∃ op, g.opcode? i = some op ∧ op.isTerminator :=
  (Option.any_eq_true _ _).1 last

theorem Consistent.branchTargets (valid : g.Consistent) (into : i.index < g.values.size) :
    g.branchTargets i = .ok (g.targetsOf i) := by
  unfold Graph.branchTargets targetsOf
  simp only [valid.operands into, bind, Except.bind]
  cases g.opcode? i with
  | none => rfl
  | some op => cases op <;> rfl

theorem Consistent.next? (ok : g.Consistent) (i : ValueId) (choice : Bool) : g.next? i choice =
      match g.opcode? i with
      | some .jmp => (g.targetsOf i)[0]?
      | some .br => if choice then (g.targetsOf i)[0]? else (g.targetsOf i)[1]?
      | _ => none := by
  unfold Graph.next?
  cases hit : g.opcode? i with
  | none => rfl
  | some op =>
    rw [ok.branchTargets (lt_of_opcode? hit)]
    cases op <;> rfl

theorem Consistent.next?_mem (ok : g.Consistent) {choice : Bool} (taken : g.next? i choice = some b) :
    b ∈ g.targetsOf i := by
  rw [ok.next? i choice] at taken
  split at taken
  · exact mem_of_getElem? taken
  · split at taken
    · exact mem_of_getElem? taken
    · exact mem_of_getElem? taken
  · cases taken

theorem Consistent.functionBlocks (valid : g.Consistent) {f : ValueId} (into : f.index < g.values.size) :
    g.functionBlocks f = .ok (g.layout f) := by
  unfold Graph.functionBlocks liveOperands
  rw [valid.operands into]
  rfl

end Graph
end Midend
