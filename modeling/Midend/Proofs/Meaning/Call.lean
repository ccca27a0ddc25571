import Mathlib.Data.List.Forall2
import Midend.Proofs.Meaning.Statement

/-! A call of a function. The entry gives every variable its slot and every parameter its argument,
and the exit returns what is in the slot of the result. -/
namespace Midend
open List Graph

def Param.words (params : List Param) (xs : List Int) : List Datum :=
  List.zipWith (fun param x => param.ty.word x) params xs

namespace Graph

inductive Receives (g : Graph) (entry : ValueId) : List (Param × ValueId) → List ValueId → List ValueId → Prop
  | nil : Receives g entry [] [] []
  | cons {param : Param} {arg slot store : ValueId} {pairs : List (Param × ValueId)} {slots code : List ValueId}
      (kind : g.kind? slot = some (.inst ⟨.alloca, entry, .alloca (some (param.name ++ ".addr"))⟩))
      (ty : g.ty? slot = some (.pointer param.ty.unqualified))
      (stores : g.kind? store = some (.inst ⟨.store, entry, .none⟩))
      (operands : g.operandsOf store = [some arg, some slot]) (rest : Receives g entry pairs slots code) :
      Receives g entry ((param, arg) :: pairs) (slot :: slots) (slot :: store :: code)

section Passing
variable (g : Graph) (args : List Datum)
variable {pairs : List (Param × ValueId)} {v : ValueId}

def Stands (m : Machine) (code : List ValueId) : Prop :=
  ∃ front back, g.code m.block = front ++ code ++ back ∧ front.length = m.index

structure Passes (code : List ValueId) (m m' : Machine) : Prop where
  steps : ∃ n, g.Steps args n m m'
  block : m'.block = m.block
  index : m'.index = m.index + code.length
  seated : ∀ v ∈ code, g.opcode? v = some .alloca → m'.registers v = some (.address v)
  registers : ∀ v ∉ code, m'.registers v = m.registers v
  memory : ∀ v ∉ code, m'.memory v = m.memory v

variable {g args} {m m' m'' : Machine} {cs more : List ValueId} {entry i slot store arg : ValueId} {d : Inst}

theorem Stands.execute (stands : g.Stands m (i :: cs)) (hit : g.kind? i = some (.inst d)) :
    g.execute args m = g.perform args m i d := by
  obtain ⟨front, back, isCode, length⟩ := stands
  unfold Graph.execute
  rw [isCode, ← length, append_assoc, getElem?_append_right (Nat.le_refl _), Nat.sub_self, cons_append, getElem?_cons_zero]
  dsimp only
  rw [hit]

theorem Stands.take (stands : g.Stands m (cs ++ more)) : g.Stands m cs := by
  obtain ⟨front, back, isCode, length⟩ := stands
  exact ⟨front, more ++ back, by rw [isCode]; simp, length⟩

theorem Passes.refl (m : Machine) : g.Passes args [] m m :=
  ⟨⟨0, .refl m⟩, rfl, rfl, by simp, fun _ _ => rfl, fun _ _ => rfl⟩

theorem Passes.stands (passes : g.Passes args cs m m') (stands : g.Stands m (cs ++ more)) : g.Stands m' more := by
  obtain ⟨front, back, isCode, length⟩ := stands
  refine ⟨front ++ cs, back, ?_, ?_⟩
  · rw [passes.block, isCode]
    simp
  · rw [length_append, passes.index, length]

theorem Passes.trans (first : g.Passes args cs m m') (second : g.Passes args more m' m'') :
    g.Passes args (cs ++ more) m m'' := by
  obtain ⟨n, steps⟩ := first.steps
  obtain ⟨k, steps'⟩ := second.steps
  refine ⟨⟨n + k, steps.trans steps'⟩, second.block.trans first.block, ?_, ?_, ?_, ?_⟩
  · rw [second.index, first.index, length_append, Nat.add_assoc]
  · intro v mem isSlot
    by_cases late : v ∈ more
    · exact second.seated v late isSlot
    · rw [second.registers v late]
      exact first.seated v ((mem_append.1 mem).resolve_right late) isSlot
  · intro v other
    rw [mem_append, not_or] at other
    rw [second.registers v other.2, first.registers v other.1]
  · intro v other
    rw [mem_append, not_or] at other
    rw [second.memory v other.2, first.memory v other.1]

theorem Stands.alloca (stands : g.Stands m (slot :: cs)) (args : List Datum) (isSlot : g.opcode? slot = some .alloca) :
    ∃ m', g.Passes args [slot] m m' ∧ m'.memory slot = none := by
  obtain ⟨d, hit, isOp⟩ := inst_of_opcode? isSlot
  have taken : g.execute args m = .goes ((m.put slot (.address slot)).write slot none) := by
    rw [stands.execute hit]
    unfold Graph.perform
    rw [isOp]
  refine ⟨_, ⟨⟨1, .one taken⟩, rfl, rfl, ?_, ?_, ?_⟩, if_pos rfl⟩
  · intro v mem _
    rw [mem_singleton.1 mem]
    exact if_pos rfl
  · intro v other
    exact if_neg fun eq => other (mem_singleton.2 eq)
  · intro v other
    exact if_neg fun eq => other (mem_singleton.2 eq)

theorem Stands.allocas (stands : g.Stands m cs) (args : List Datum) (ls : ∀ v ∈ cs, g.opcode? v = some .alloca) (once : cs.Nodup) :
    ∃ m', g.Passes args cs m m' ∧ ∀ v ∈ cs, m'.memory v = none := by
  induction cs generalizing m with
  | nil => exact ⟨m, .refl m, by simp⟩
  | cons slot tl ih =>
    obtain ⟨fresh, onceRest⟩ := nodup_cons.1 once
    obtain ⟨m1, first, empty⟩ := stands.alloca args (ls slot mem_cons_self)
    obtain ⟨m2, others, emptyRest⟩ := ih (first.stands stands) (fun v listed => ls v (mem_cons_of_mem _ listed)) onceRest
    refine ⟨m2, first.trans others, ?_⟩
    intro v listed
    rcases mem_cons.1 listed with rfl | listed
    · rw [others.memory v fresh]
      exact empty
    · exact emptyRest v listed

private theorem Stands.received {param : Param} {word : Datum} (stands : g.Stands m (slot :: store :: cs))
    (kind : g.kind? slot = some (.inst ⟨.alloca, entry, .alloca (some (param.name ++ ".addr"))⟩))
    (ty : g.ty? slot = some (.pointer param.ty.unqualified))
    (stores : g.kind? store = some (.inst ⟨.store, entry, .none⟩))
    (ops : g.operandsOf store = [some arg, some slot]) (isWord : ∀ m, g.datum args m arg = some word)
    (fits : word.fits (some param.ty.unqualified)) :
    ∃ m', g.Passes args [slot, store] m m' ∧ m'.memory slot = some word := by
  obtain ⟨m1, first, _⟩ := stands.alloca args (opcode?_eq kind)
  have isSlot : g.datum args m1 slot = some (.address slot) := by
    unfold Graph.datum
    rw [kind]
    exact first.seated slot mem_cons_self (opcode?_eq kind)
  have stored : g.stored? args m1 arg slot = some (slot, word) := by
    unfold Graph.stored?
    rw [isSlot, isWord m1, ty]
    show Option.map _ (Option.filter (·.fits (some param.ty.unqualified)) (some word)) = _
    rw [Option.filter_some, if_pos fits]
    rfl
  have tl : g.Stands m1 (store :: cs) := first.stands stands
  have taken : g.execute args m1 = .goes { m1.write slot (some word) with index := m1.index + 1 } := by
    rw [tl.execute stores]
    unfold Graph.perform
    rw [ops]
    dsimp only
    rw [stored]
  obtain ⟨n, steps⟩ := first.steps
  refine ⟨_, ⟨⟨n + 1, steps.trans (.one taken)⟩, first.block, congrArg (· + 1) first.index, ?_, ?_, ?_⟩, if_pos rfl⟩
  · intro v mem isAlloca
    rcases mem_pair.1 mem with rfl | rfl
    · exact first.seated v mem_cons_self isAlloca
    · rw [opcode?_eq stores] at isAlloca
      cases isAlloca
  · intro v other
    exact first.registers v fun mem => other (mem_cons.2 (.inl (mem_singleton.1 mem)))
  · intro v other
    have notSlot : v ≠ slot := fun eq => other (mem_cons.2 (.inl eq))
    exact (if_neg notSlot).trans (first.memory v fun mem => notSlot (mem_singleton.1 mem))

theorem Receives.run {ls : List ValueId} {words : List Datum} (receives : g.Receives entry pairs ls cs)
    (stands : g.Stands m cs) (once : cs.Nodup)
    (fit : List.Forall₂ (fun pair word => (∀ m, g.datum args m pair.2 = some word) ∧
      word.fits (some pair.1.ty.unqualified)) pairs words) :
    ∃ m', g.Passes args cs m m' ∧ List.Forall₂ (fun slot word => m'.memory slot = some word) ls words := by
  induction receives generalizing m words with
  | nil =>
    cases fit
    exact ⟨m, .refl m, .nil⟩
  | @cons param arg slot store pairs ls cs kind ty stores ops tl ih =>
    cases fit with
    | @cons _ word _ words isFit fits =>
      obtain ⟨freshSlot, onceStore⟩ := nodup_cons.1 once
      obtain ⟨m1, first, content⟩ := stands.received kind ty stores ops isFit.1 isFit.2
      obtain ⟨m2, others, contents⟩ := ih (first.stands stands) (nodup_cons.1 onceStore).2 fits
      refine ⟨m2, first.trans others, .cons ?_ contents⟩
      rw [others.memory slot fun mem => freshSlot (mem_cons_of_mem _ mem)]
      exact content

theorem Receives.types {ls : List ValueId} (receives : g.Receives entry pairs ls cs) :
    List.Forall₂ (fun pair slot => slot ∈ cs ∧ g.ty? slot = some (.pointer pair.1.ty.unqualified)) pairs ls := by
  induction receives with
  | nil => exact .nil
  | cons _ ty _ _ _ ih =>
    refine .cons ⟨mem_cons_self, ty⟩ (ih.imp ?_)
    intro pair slot ⟨mem, isTy⟩
    exact ⟨mem_cons_of_mem _ (mem_cons_of_mem _ mem), isTy⟩

theorem Receives.insts {ls : List ValueId} (receives : g.Receives entry pairs ls cs) (listed : v ∈ cs) :
    ∃ data, g.kind? v = some (.inst data) := by
  induction receives with
  | nil => cases listed
  | cons kind _ stores _ _ ih =>
    rcases mem_cons.1 listed with rfl | listed
    · exact ⟨_, kind⟩
    · rcases mem_cons.1 listed with rfl | listed
      · exact ⟨_, stores⟩
      · exact ih listed

theorem Receives.slots {ls : List ValueId} (receives : g.Receives entry pairs ls cs) (listed : v ∈ cs)
    (isSlot : g.opcode? v = some .alloca) : v ∈ ls := by
  induction receives with
  | nil => cases listed
  | cons _ _ stores _ _ ih =>
    rcases mem_cons.1 listed with rfl | listed
    · exact mem_cons_self
    · rcases mem_cons.1 listed with rfl | listed
      · rw [opcode?_eq stores] at isSlot
        cases isSlot
      · exact mem_cons_of_mem _ (ih listed)

end Passing
end Graph

namespace Plan
section Calls
variable (c : Plan)

structure Entrance (pairs : List (Param × ValueId)) (slots front more : List ValueId) (jump body : ValueId) : Prop where
  receives : c.graph.Receives c.entry pairs slots front
  arguments : ∀ (i : Nat) pair, pairs[i]? = some pair → ∃ name, c.graph.kind? pair.2 = some (.argument i name)
  code : c.graph.code c.entry = front ++ more ++ [jump]
  once : (c.graph.code c.entry).Nodup
  allocas : ∀ v ∈ more, c.graph.opcode? v = some .alloca
  jumps : c.graph.kind? jump = some (.inst ⟨.jmp, c.entry, .none⟩)
  target : c.graph.operandsOf jump = [some body]
  first : slots <+: c.slots

structure Arranged (ty : Ty) : Prop where
  slotted : ∀ v ∈ c.slots, ∃ ty name, c.Slotted v ty (some name)
  nodup : c.slots.Nodup
  global : ∀ name v, c.global name = some v → c.graph.kind? v = some (.global name)
  result : ∀ slot ∈ c.result, slot ∉ c.slots ∧ ∃ name, c.Slotted slot ty (some name)
  void : c.result.isNone = ty.isVoid

def Stored (globals : String → Option Int) (memory : ValueId → Option Datum) : Prop :=
  ∀ name v ty, c.global name = some v → c.Cell v ty →
    memory v = (globals name).map ty.word ∧ ∀ x ∈ globals name, ty.Holds x

variable {c} {pairs : List (Param × ValueId)} {ls front more : List ValueId} {jump body : ValueId} {ty : Ty}
  {xs : List Int} {gs : String → Option Int} {memory : ValueId → Option Datum}

/-- The cells of the variables of a function are apart from each other. -/
theorem Arranged.sound (arranged : c.Arranged ty) (integral : ty.isInteger || ty.isVoid) : c.Sound ty where
  distinct := by
    have apart : ∀ (number : Nat) name cell, c.slots[number]? = some cell → c.global name ≠ some cell := by
      intro number name cell isSlot isGlobal
      obtain ⟨_, _, slotted⟩ := arranged.slotted cell (List.mem_of_getElem? isSlot)
      cases slotted.kind.symm.trans (arranged.global name cell isGlobal)
    intro place place' cell isCell isCell'
    cases place with
    | slot number =>
      cases place' with
      | slot number' =>
        obtain ⟨into, _⟩ := List.getElem?_eq_some_iff.1 isCell
        rw [(List.getElem?_inj into arranged.nodup).1 (isCell.trans isCell'.symm)]
      | global name => exact absurd isCell' (apart number name cell isCell)
    | global name =>
      cases place' with
      | slot number => exact absurd isCell (apart number name cell isCell')
      | global name' =>
        cases (arranged.global name cell isCell).symm.trans (arranged.global name' cell isCell')
        rfl
  slotted slot isResult := (arranged.result slot isResult).2
  apart := by
    intro slot isResult place isCell
    obtain ⟨fresh, name, slotted⟩ := arranged.result slot isResult
    cases place with
    | slot number => exact fresh (List.mem_of_getElem? isCell)
    | global name => cases slotted.kind.symm.trans (arranged.global name slot isCell)
  integer := by
    intro slot isResult
    have notVoid := arranged.void
    rw [isResult] at notVoid
    rw [← notVoid] at integral
    simpa using integral
  void missing := by
    rw [← arranged.void, missing]
    rfl

section
variable (entrance : c.Entrance pairs ls front more jump body)
include entrance

theorem Entrance.fit (integers : ∀ pair ∈ pairs, pair.1.ty.isInteger) (eq : pairs.length = xs.length) :
    List.Forall₂ (fun pair word => (∀ m, c.graph.datum (Param.words (pairs.map (·.1)) xs) m pair.2 = some word) ∧
      word.fits (some pair.1.ty.unqualified)) pairs (Param.words (pairs.map (·.1)) xs) := by
  have length : pairs.length = (Param.words (pairs.map (·.1)) xs).length := by
    rw [Param.words, length_zipWith, length_map, ← eq, Nat.min_self]
  refine forall₂_iff_get.2 ⟨length, ?_⟩
  intro i into inside'
  obtain ⟨name, isArg⟩ := entrance.arguments i _ (getElem?_eq_getElem into)
  refine ⟨?_, ?_⟩
  · intro m
    unfold Graph.datum
    rw [get_eq_getElem, isArg]
    exact getElem?_eq_getElem inside'
  · have isWord : (Param.words (pairs.map (·.1)) xs).get ⟨i, inside'⟩ = pairs[i].1.ty.word (xs.get ⟨i, eq ▸ into⟩) := by
      simp [Param.words]
    rw [isWord]
    exact Ty.fits_word (Ty.alike_unqualified _) (integers _ (getElem_mem into)) _

theorem Entrance.late {v : ValueId} {name : Option String}
    (slotted : c.Slotted v ty name) (notParam : v ∉ ls) : v ∈ more := by
  have isSlot := opcode?_eq slotted.kind
  have mem := slotted.listed
  rw [entrance.code, mem_append, mem_append, mem_singleton] at mem
  rcases mem with (early | late) | rfl
  · exact absurd (entrance.receives.slots early isSlot) notParam
  · exact late
  · rw [opcode?_eq entrance.jumps] at isSlot
    cases isSlot

theorem Entrance.param (disjoint : ∀ v ∈ front, v ∉ more)
    (h : List.Forall₂ (fun pair x => pair.1.ty.Holds x) pairs xs) {args : List Datum} {m m' : Machine}
    (contents : List.Forall₂ (fun slot word => m.memory slot = some word) ls (Param.words (pairs.map (·.1)) xs))
    (passes : c.graph.Passes args more m m') {number : Nat} {cell : ValueId} {own : Ty}
    (isCell : c.slots[number]? = some cell) (typed : c.Cell cell own) (param : number < ls.length) :
    m'.memory cell = xs[number]?.map own.word ∧ ∀ x ∈ xs[number]?, own.Holds x := by
  have types := entrance.receives.types
  have inPairs : number < pairs.length := types.length_eq ▸ param
  have inArgs : number < xs.length := h.length_eq ▸ inPairs
  have inWords : number < (Param.words (pairs.map (·.1)) xs).length := contents.length_eq ▸ param
  have isSlot : ls.get ⟨number, param⟩ = cell := by
    obtain ⟨others, eq⟩ := entrance.first
    rw [← eq, getElem?_append_left param, getElem?_eq_getElem param] at isCell
    exact Option.some.inj isCell
  obtain ⟨mem, isTy⟩ := types.get inPairs param
  have content := contents.get param inWords
  have isHeld := h.get inPairs inArgs
  rw [isSlot] at mem isTy content
  have alike : own.Alike (pairs.get ⟨number, inPairs⟩).1.ty := by
    have eq := Option.some.inj (typed.ty.symm.trans isTy)
    injection eq
  have isWord : (Param.words (pairs.map (·.1)) xs).get ⟨number, inWords⟩ =
      (pairs.get ⟨number, inPairs⟩).1.ty.word (xs.get ⟨number, inArgs⟩) := by
    simp [Param.words]
  rw [passes.memory cell (disjoint cell mem), content, isWord, getElem?_eq_getElem inArgs, ← alike.word]
  refine ⟨rfl, ?_⟩
  intro x isX
  cases isX
  exact (alike.holds _).2 isHeld

/-- The entry leads to the body, with the arguments in the slots of the parameters and nothing in
the other slots. -/
theorem Entrance.ready (arranged : c.Arranged ty)
    (integers : ∀ pair ∈ pairs, pair.1.ty.isInteger) (h : List.Forall₂ (fun pair x => pair.1.ty.Holds x) pairs xs)
    (stored : c.Stored gs memory) :
    ∃ n m', c.graph.Steps (Param.words (pairs.map (·.1)) xs) n ⟨c.entry, 0, fun _ => none, memory⟩ m' ∧ m'.At ⟨body, 0, 0⟩ ∧
      c.Ready (.start xs gs) m' := by
  obtain ⟨apart, _⟩ := nodup_append.1 (entrance.code ▸ entrance.once)
  obtain ⟨onceFront, onceMore, disjoint⟩ := nodup_append.1 apart
  have stands : c.graph.Stands ⟨c.entry, 0, fun _ => none, memory⟩ (front ++ (more ++ [jump])) :=
    ⟨[], [], by simp [entrance.code], rfl⟩
  obtain ⟨m1, first, contents⟩ := entrance.receives.run stands.take onceFront (entrance.fit integers h.length_eq)
  have stands1 := first.stands stands
  obtain ⟨m2, second, empty⟩ := stands1.take.allocas (Param.words (pairs.map (·.1)) xs) entrance.allocas onceMore
  have taken : c.graph.execute (Param.words (pairs.map (·.1)) xs) m2 = .goes (m2.goto body) := by
    rw [(second.stands stands1).execute entrance.jumps]
    unfold Graph.perform
    rw [entrance.target]
  have through := first.trans second
  obtain ⟨n, steps⟩ := through.steps
  refine ⟨n + 1, m2.goto body, steps.trans (.one taken), ⟨rfl, rfl⟩, ⟨?_, ?_⟩, ?_⟩
  · intro v mem isSlot
    refine through.seated v ?_ isSlot
    rw [entrance.code] at mem
    rcases mem_append.1 mem with early | late
    · exact early
    · rw [mem_singleton.1 late, opcode?_eq entrance.jumps] at isSlot
      cases isSlot
  · intro place cell own isCell typed
    cases place with
    | slot number =>
      obtain ⟨_, _, slotted⟩ := arranged.slotted cell (mem_of_getElem? isCell)
      rcases Nat.lt_or_ge number ls.length with param | later
      · exact entrance.param (fun v early late => disjoint v early v late rfl) h contents second isCell typed param
      · have notParam : cell ∉ ls := by
          intro mem
          obtain ⟨number', into, isAt⟩ := getElem_of_mem mem
          have isCell' : c.slots[number']? = some cell := by
            obtain ⟨others, eq⟩ := entrance.first
            rw [← eq, getElem?_append_left into, getElem?_eq_getElem into, isAt]
          have lt := (List.getElem?_eq_some_iff.1 isCell).1
          have equal := (getElem?_inj lt arranged.nodup).1 (isCell.trans isCell'.symm)
          omega
        have missing : (Store.start xs gs) (.slot number) = none := by
          apply getElem?_eq_none
          rw [← h.length_eq, entrance.receives.types.length_eq]
          exact later
        rw [missing]
        exact ⟨empty cell (entrance.late slotted notParam), by simp⟩
    | global name =>
      have isGlobal := arranged.global name cell isCell
      have outside : cell ∉ front ++ more := by
        intro mem
        rcases mem_append.1 mem with early | late
        · obtain ⟨_, isInst⟩ := entrance.receives.insts early
          cases isGlobal.symm.trans isInst
        · obtain ⟨_, isInst, _⟩ := inst_of_opcode? (entrance.allocas cell late)
          cases isGlobal.symm.trans isInst
      show m2.memory cell = _ ∧ _
      rw [through.memory cell outside]
      exact stored name cell own isCell typed
  · intro slot isResult
    obtain ⟨fresh, name, slotted⟩ := arranged.result slot isResult
    exact empty slot (entrance.late slotted fun isParam => fresh (entrance.first.subset isParam))

end

end Calls

section Ends
variable (c : Plan) (args : List Datum) (rounds : Nat)

def Answers (ty : Ty) : Prop :=
  match c.result with
  | none => ∃ n inst q, c.Puts ⟨c.exit, 0, n⟩ .ret .void [] .none inst q
  | some slot => ∃ n v p inst q, c.Puts ⟨c.exit, 0, n⟩ .load ty.unqualified [slot] .none v p ∧
      c.Puts p .ret .void [v] .none inst q

def Concludes (ty : Ty) (m : Machine) : Ending → Prop
  | .done (.returned value) store => ∃ memory, c.graph.Halts args m (.returns (value.map ty.word) memory) ∧
      c.Stored (fun name => store (.global name)) memory
  | .done _ _ => False
  | .stuck => c.graph.Halts args m .stuck
  | .unfinished => ∃ n m', rounds ≤ n ∧ c.graph.Steps args n m m'

variable {c args rounds} {ty : Ty} {m m' : Machine} {n k : Nat} {store : Store} {val : Option Int} {ending : Ending}

theorem Concludes.after (concludes : c.Concludes args rounds ty m' ending) (steps : c.graph.Steps args n m m') :
    c.Concludes args rounds ty m ending := by
  match ending, concludes with
  | .done (.returned val) store, ⟨memory, halts, stored⟩ => exact ⟨memory, steps.halts halts, stored⟩
  | .stuck, halts => exact steps.halts halts
  | .unfinished, ⟨k, last, enough, more⟩ => exact ⟨n + k, last, by omega, steps.trans more⟩

theorem Agrees.stored (agrees : c.Agrees store m) : c.Stored (fun name => store (.global name)) m.memory :=
  fun name v ty isGlobal cell => agrees.holds (.global name) v ty isGlobal cell

theorem Answers.void (answers : c.Answers ty) (missing : c.result = none) (here : m.At ⟨c.exit, 0, 0⟩) :
    c.graph.Halts args m (.returns none m.memory) := by
  rw [Answers, missing] at answers
  obtain ⟨_, i, q, put⟩ := answers
  refine halts_of_execute ?_ nofun
  rw [put.execute ⟨here.block, here.index⟩]
  unfold Graph.perform
  rw [put.operands]
  rfl

theorem Answers.loads {slot : ValueId} (answers : c.Answers ty) (args : List Datum) (isResult : c.result = some slot)
    (sound : c.Sound ty) (keeps : c.Keeps ty store val m) (here : m.At ⟨c.exit, 0, 0⟩) :
    match val with
    | some x => ∃ m', c.graph.Halts args m (.returns (some (ty.word x)) m'.memory) ∧ c.Agrees store m'
    | none => c.graph.Halts args m .stuck := by
  rw [Answers, isResult] at answers
  obtain ⟨n, v, p, i, q, load, put⟩ := answers
  obtain ⟨name, slotted⟩ := sound.slotted slot isResult
  have alike := ty.alike_unqualified
  have gives : c.Gives args m n p v ty.unqualified val := by
    apply load.gives ⟨here.block, here.index⟩ (.inr (.inr (.inr rfl)))
    · rw [alike.isInteger]
      exact sound.integer slot isResult
    · intro x isValue
      exact (alike.holds x).2 (keeps.holds slot isResult x isValue)
    · rw [load.result?_load, slotted.datum keeps.agrees, alike.word]
      exact keeps.content slot isResult
  cases val with
  | none => exact gives
  | some x =>
    obtain ⟨m', arrives, has⟩ := gives
    refine ⟨m', arrives.halts (halts_of_execute ?_ nofun), keeps.agrees.kept arrives.frame⟩
    rw [put.execute arrives.here]
    unfold Graph.perform
    rw [put.operands]
    dsimp only [List.map]
    rw [has.datum, alike.word]

private theorem Keeps.concludes (keeps : c.Keeps ty store val m) (sound : c.Sound ty) (answers : c.Answers ty)
    (here : m.At ⟨c.exit, 0, 0⟩) :
    c.Concludes args rounds ty m ((Ending.done (.returned val) store).answer ty) := by
  cases isResult : c.result with
  | none =>
    obtain rfl := keeps.void isResult
    rw [Ending.answer, if_pos (sound.void isResult)]
    exact ⟨m.memory, answers.void isResult here, keeps.agrees.stored⟩
  | some slot =>
    have loaded := answers.loads args isResult sound keeps here
    cases val with
    | some x =>
      obtain ⟨m', halts, agrees⟩ := loaded
      exact ⟨m'.memory, halts, agrees.stored⟩
    | none =>
      rw [Ending.answer, Ty.isVoid_of_isInteger (sound.integer slot isResult)]
      exact loaded

private theorem Reaches.concludes (reaches : c.Reaches args ty none rounds m ⟨c.exit, 0, k⟩ ending)
    (sound : c.Sound ty) (answers : c.Answers ty) : c.Concludes args rounds ty m (ending.answer ty) := by
  match ending, reaches with
  | .done .normal store, ⟨n, m', steps, there, ready⟩ =>
    have keeps : c.Keeps ty store none m' := ⟨ready.agrees, ready.unset, by simp, fun _ => rfl⟩
    exact (keeps.concludes sound answers ⟨there.block, there.index⟩).after steps
  | .done (.returned val) store, ⟨n, m', steps, there, keeps⟩ =>
    exact (keeps.concludes sound answers there).after steps
  | .stuck, halts => exact halts
  | .unfinished, unfinished => exact unfinished

end Ends

section Functions
variable (c : Plan)

def PerformsBody (scope : Scope) : Stmt → Spot → Spot → Prop
  | .compound body _ => c.PerformsAll none scope body
  | body => c.Performs none scope body

structure Encloses (f : FuncDef) (names : Bindings Variable) : Prop where
  arranged : c.Arranged f.returnType
  body : ∃ args slots front more jump block q, args.length = f.params.length ∧
    c.Entrance (f.params.zip args) slots front more jump block ∧
    c.PerformsBody (f.scope names) f.body ⟨block, 0, c.start⟩ q ∧ c.Jumps q c.exit
  early : ∀ v ∈ c.graph.code c.entry, c.graph.opcode? v = some .alloca ∨ v.index < c.start
  answers : c.Answers f.returnType

variable {c} {args : List Datum} {ty : Ty} {rounds : Nat} {m : Machine} {p q : Spot} {store : Store} {sc : Scope}
  {f : FuncDef} {ns : Bindings Variable} {xs : List Int} {gs : String → Option Int}
  {memory : ValueId → Option Datum}

theorem PerformsBody.reaches {body : Stmt} (cs : c.PerformsBody sc body p q) (args : List Datum) (rounds : Nat)
    (sound : c.Sound ty) (integral : body.integralBody sc) (ready : c.Ready store m) (here : m.At p) :
    c.Reaches args ty none rounds m q (body.execBody rounds ty sc store) := by
  cases body with
  | compound body loc => exact PerformsAll.reaches args sound body cs integral ready here
  | _ => exact Performs.reaches args sound _ cs integral ready here

theorem Encloses.ready (encloses : c.Encloses f ns) (integers : f.params.all (·.ty.isInteger))
    (h : List.Forall₂ (fun param x => param.ty.Holds x) f.params xs) (stored : c.Stored gs memory) :
    ∃ n m p q, c.graph.Steps (Param.words f.params xs) n ⟨c.entry, 0, fun _ => none, memory⟩ m ∧ m.At p ∧
      c.Ready (.start xs gs) m ∧ c.PerformsBody (f.scope ns) f.body p q ∧ c.Jumps q c.exit := by
  obtain ⟨args, ls, front, more, jump, b, q, eq, entrance, body, jumps⟩ := encloses.body
  rw [all_eq_true] at integers
  have firsts : (f.params.zip args).map (·.1) = f.params := map_fst_zip (Nat.le_of_eq eq.symm)
  have fit : List.Forall₂ (fun pair x => pair.1.ty.Holds x) (f.params.zip args) xs := by
    rw [← firsts, forall₂_map_left_iff] at h
    exact h
  obtain ⟨k, m, steps, there, ready⟩ := entrance.ready encloses.arranged
    (fun pair mem => integers pair.1 (of_mem_zip mem).1) fit stored
  rw [firsts] at steps
  exact ⟨k, m, ⟨b, 0, c.start⟩, q, steps, ⟨there.block, there.index⟩, ready, body, jumps⟩

theorem Encloses.call (encloses : c.Encloses f ns) (integral : f.integral ns)
    (h : List.Forall₂ (fun param x => param.ty.Holds x) f.params xs) (stored : c.Stored gs memory)
    (rounds : Nat) : c.Concludes (Param.words f.params xs) rounds f.returnType ⟨c.entry, 0, fun _ => none, memory⟩
      (f.call ns rounds xs gs) := by
  simp only [FuncDef.integral, Bool.and_eq_true] at integral
  have sound := encloses.arranged.sound integral.1.2
  obtain ⟨n, m, p, q, steps, here, ready, cs, jumps⟩ := encloses.ready integral.1.1 h stored
  have reaches := cs.reaches (Param.words f.params xs) rounds sound integral.2 ready here
  exact ((reaches.jump jumps sound 0).concludes sound encloses.answers).after steps

end Functions
end Plan

private theorem Ending.answer_cases (ty : Ty) (ending : Ending) : (∃ val store, ending.answer ty = .done (.returned val) store) ∨
    ending.answer ty = .stuck ∨ ending.answer ty = .unfinished := by
  match ending with
  | .done (.returned (some x)) store => exact .inl ⟨some x, store, rfl⟩
  | .done (.returned none) store | .done .normal store =>
    by_cases isVoid : ty.isVoid
    · exact .inl ⟨none, store, if_pos isVoid⟩
    · exact .inr (.inl (if_neg isVoid))
  | .done .broken _ | .done .continued _ | .stuck => exact .inr (.inl rfl)
  | .unfinished => exact .inr (.inr rfl)

/-- A call of a function in a graph ends as the source says, and goes on as long as the source does. What the globals
hold is found in the memory before and afterwards. -/
structure FuncDef.Agrees (f : FuncDef) (names : Bindings Variable) (xs : List Int) (globals : String → Option Int)
    (g : Graph) (func : ValueId) (memory : ValueId → Option Datum)
    (stored : (String → Option Int) → (ValueId → Option Datum) → Prop) : Prop where
  returns : ∀ value globals', f.Returns names xs globals value globals' →
    ∃ memory', g.Returns (Param.words f.params xs) func memory (value.map f.returnType.word) memory' ∧
      stored globals' memory'
  returned : ∀ result memory', g.Returns (Param.words f.params xs) func memory result memory' →
    ∃ value globals', f.Returns names xs globals value globals' ∧ result = value.map f.returnType.word ∧
      stored globals' memory'
  sticks : f.Sticks names xs globals ↔ g.Sticks (Param.words f.params xs) func memory
  diverges : f.Diverges names xs globals ↔ g.Diverges (Param.words f.params xs) func memory

section Agreement
variable {c : Plan} {f : FuncDef} {ns : Bindings Variable} {xs : List Int} {gs : String → Option Int}
  {fn : ValueId} {memory : ValueId → Option Datum} {s0 : Machine}

/-- Code that concludes after any number of rounds agrees with the source. -/
theorem FuncDef.agrees_of_concludes (called : c.graph.called fn memory = some s0)
    (each : ∀ rounds, c.Concludes (Param.words f.params xs) rounds f.returnType s0 (f.call ns rounds xs gs)) :
    f.Agrees ns xs gs c.graph fn memory c.Stored := by
  have returns : ∀ val globals', f.Returns ns xs gs val globals' →
      ∃ memory', c.graph.Halts (Param.words f.params xs) s0 (.returns (val.map f.returnType.word) memory') ∧
        c.Stored globals' memory' := by
    intro val globals' ⟨rounds, store, ended, eq⟩
    have concludes := each rounds
    rw [ended] at concludes
    rw [eq]
    exact concludes
  have sticks : f.Sticks ns xs gs → c.graph.Halts (Param.words f.params xs) s0 .stuck := by
    intro ⟨rounds, ended⟩
    have concludes := each rounds
    rw [ended] at concludes
    exact concludes
  have diverges : f.Diverges ns xs gs → c.graph.Endless (Param.words f.params xs) s0 := by
    intro unfinished n
    have concludes := each n
    rw [unfinished n] at concludes
    obtain ⟨k, last, enough, steps⟩ := concludes
    exact steps.take enough
  have unique : ∀ {start'}, c.graph.called fn memory = some start' → start' = s0 :=
    fun called' => Option.some.inj (called'.symm.trans called)
  -- The source leaves nothing open either, so the machine decides what the source does.
  have total : (∃ val globals', f.Returns ns xs gs val globals') ∨ f.Sticks ns xs gs ∨
      f.Diverges ns xs gs := by
    by_cases endless : f.Diverges ns xs gs
    · exact .inr (.inr endless)
    · obtain ⟨rounds, ended⟩ := not_forall.1 endless
      rcases Ending.answer_cases f.returnType
        (f.body.execBody rounds f.returnType (f.scope ns) (.start xs gs)) with ⟨val, store, done⟩ | stuck | open'
      · exact .inl ⟨val, _, rounds, store, done, rfl⟩
      · exact .inr (.inl ⟨rounds, stuck⟩)
      · exact absurd open' ended
  refine ⟨?_, ?_, ⟨?_, ?_⟩, ⟨?_, ?_⟩⟩
  · intro val globals' returned
    obtain ⟨memory', halts, stored⟩ := returns val globals' returned
    exact ⟨memory', ⟨s0, called, halts⟩, stored⟩
  · intro res memory' ⟨start', called', halts⟩
    obtain rfl := unique called'
    rcases total with ⟨val, globals', returned⟩ | stuck | endless
    · obtain ⟨memory'', halts', stored⟩ := returns val globals' returned
      cases halts.unique halts'
      exact ⟨val, globals', returned, rfl, stored⟩
    · cases halts.unique (sticks stuck)
    · exact absurd (diverges endless) halts.not_endless
  · intro stuck
    exact ⟨s0, called, sticks stuck⟩
  · intro ⟨start', called', halts⟩
    obtain rfl := unique called'
    rcases total with ⟨val, globals', returned⟩ | stuck | endless
    · obtain ⟨_, halts', _⟩ := returns val globals' returned
      cases halts.unique halts'
    · exact stuck
    · exact absurd (diverges endless) halts.not_endless
  · intro endless
    exact ⟨s0, called, diverges endless⟩
  · intro ⟨start', called', endless⟩
    obtain rfl := unique called'
    rcases total with ⟨val, globals', returned⟩ | stuck | unfinished
    · obtain ⟨_, halts, _⟩ := returns val globals' returned
      exact absurd endless halts.not_endless
    · exact absurd endless (sticks stuck).not_endless
    · exact unfinished

end Agreement
end Midend
