import Midend.Proofs.Meaning.Expression

/-! The code of a statement does what the statement says. It is followed as long as the loops of
the source have rounds left: where those run out, the machine has made as many steps. -/
namespace Midend

theorem Ty.isVoid_of_isInteger {ty : Ty} (integer : ty.isInteger) : ty.isVoid = false := by
  unfold Ty.isInteger at integer
  unfold Ty.isVoid
  split at integer <;> simp_all

private theorem Ending.ofStore_bind (first : Option Store) (next : Store → Option Store) :
    Ending.ofStore (first.bind next) = (Ending.ofStore first).andThen fun store => .ofStore (next store) := by
  cases first <;> rfl

def Graph.AtStore (g : Graph) (m : Machine) (cell : ValueId) : Prop :=
  ∃ value inst, (g.code m.block)[m.index]? = some inst ∧ g.opcode? inst = some .store ∧
    g.operandsOf inst = [some value, some cell]

namespace Plan

section Writing
variable (c : Plan) (args : List Datum)
variable {r : Option Int} {place : Place}

def Sets (m : Machine) (q : Spot) (cell : ValueId) (ty : Ty) : Option Int → Prop
  | some x => ty.Holds x ∧ ∃ n m₁ m', c.graph.Steps args n m m₁ ∧ c.graph.AtStore m₁ cell ∧
      c.graph.Steps args 1 m₁ m' ∧ m'.At q ∧ c.Frame 0 m m₁ ∧ Wrote m₁ m' cell (ty.word x)
  | none => c.graph.Halts args m .stuck

/-- The machine is ready for a statement: nothing is to be returned so far. -/
structure Ready (store : Store) (m : Machine) : Prop where
  agrees : c.Agrees store m
  unset : ∀ slot ∈ c.result, m.memory slot = none

variable {c args} {m m' : Machine} {p p0 p1 q : Spot} {slot u v val cell : ValueId} {ty source res : Ty} {x : Int}
  {store : Store} {sc : Scope} {e : Expr} {size : Nat}

theorem Arrives.sets (arrives : c.Arrives args m size p m') (sets : c.Sets args m' q cell ty r) :
    c.Sets args m q cell ty r := by
  cases r with
  | none => exact arrives.halts sets
  | some x =>
    obtain ⟨h, n, m1, m2, steps, isStore, step, there, frame, wrote⟩ := sets
    obtain ⟨k, pre⟩ := arrives.steps
    exact ⟨h, k + n, m1, m2, pre.trans steps, isStore, step, there, (Frame.refl m).trans arrives.frame (Nat.zero_le _)
      |>.trans frame (Nat.le_refl 0), wrote⟩

theorem Saves.sets (saves : c.Saves p cell v val q) (made : c.Made p0 v source p) (isSource : source.isInteger)
    (typed : c.Cell cell ty) (integer : ty.isInteger) (agrees : c.Agrees store m) (here : m.At p)
    (has : c.Has args m v source x) : c.Sets args m q cell ty (some (ty.wrap x)) := by
  obtain ⟨p1, cellTy, pointee, isTy, isPointee, converts, stores⟩ := saves
  cases typed.ty.symm.trans isTy
  cases isPointee
  have alike := ty.alike_unqualified
  obtain ⟨m1, arrives, has1⟩ := converts.gives made.typed isSource (by rwa [alike.isInteger]) here has
  rw [alike.wrap] at has1
  obtain ⟨m', step, there, wrote⟩ := stores.writes arrives.here (typed.datum (agrees.kept arrives.frame)) typed.ty
    integer (has1.congr alike)
  obtain ⟨n, steps⟩ := arrives.steps
  have isStore : c.graph.AtStore m1 cell := by
    obtain ⟨i, put⟩ := stores
    refine ⟨val, i, ?_, Graph.opcode?_eq put.kind, put.operands⟩
    rw [arrives.here.block, arrives.here.index]
    exact put.listed
  exact ⟨ty.holds_wrap x, n, m1, m', steps, isStore, step, there,
    (Frame.refl m).trans arrives.frame (Nat.zero_le _), wrote⟩

theorem Gives.sets (gives : c.Gives args m size p1 v source r) (saves : c.Saves p1 cell v val q)
    (made : c.Made p v source p1) (isSource : source.isInteger) (typed : c.Cell cell ty)
    (integer : ty.isInteger) (agrees : c.Agrees store m) : c.Sets args m q cell ty (r.map ty.wrap) := by
  cases r with
  | none => exact gives
  | some x =>
    obtain ⟨m1, arrives, has⟩ := gives
    exact arrives.sets (saves.sets made isSource typed integer (agrees.kept arrives.frame) arrives.here has)

theorem Assigns.sets (assigns : c.Assigns p1 cell u v q) (args : List Datum) (computes : c.Computes sc e p u p1)
    (integral : e.integral sc) (typed : c.Cell cell ty) (integer : ty.isInteger)
    (agrees : c.Agrees store m) (here : m.At p) : c.Sets args m q cell ty ((e.eval sc store).map ty.wrap) := by
  obtain ⟨loaded, p2, loads, saves⟩ := assigns
  have val : c.Value (c.Computes sc e) p loaded p2 := ⟨u, p1, computes, loads⟩
  exact (Value.gives args e integral val agrees here).sets saves (Value.made integral val)
    (e.isInteger_of_integral integral) typed integer agrees

theorem Cell.alike {other : Ty} (isCell : c.Cell cell ty) (isCell' : c.Cell cell other) : ty.Alike other := by
  have eq := Option.some.inj (isCell.ty.symm.trans isCell'.ty)
  injection eq

theorem Ready.kept (ready : c.Ready store m) (sound : c.Sound res) (frame : c.Frame size m m') :
    c.Ready store m' := by
  refine ⟨ready.agrees.kept frame, ?_⟩
  intro slot isResult
  obtain ⟨name, slotted⟩ := sound.slotted slot isResult
  rw [frame.memory slot (not_temporary slotted)]
  exact ready.unset slot isResult

theorem Agrees.wrote (agrees : c.Agrees store m) (sound : c.Sound res)
    (isCell : c.cell? place = some cell) (typed : c.Cell cell ty) (h : ty.Holds x)
    (wrote : Wrote m m' cell (ty.word x)) : c.Agrees (store.set place x) m' := by
  refine ⟨?_, ?_⟩
  · intro v mem isSlot
    rw [wrote.registers]
    exact agrees.seated v mem isSlot
  · intro place' cell' ty' isCell' typed'
    by_cases eq : place' = place
    · subst eq
      cases isCell.symm.trans isCell'
      have alike := typed.alike typed'
      rw [wrote.self, Store.set, if_pos rfl, Option.map_some, alike.word]
      refine ⟨rfl, ?_⟩
      intro y isValue
      cases isValue
      exact (alike.holds x).1 h
    · have other : cell' ≠ cell := by
        rintro rfl
        exact eq (sound.distinct place' place cell' isCell' isCell)
      rw [wrote.other cell' other, Store.set, if_neg eq]
      exact agrees.holds place' cell' ty' isCell' typed'

private theorem Agrees.aside {content : Datum} (agrees : c.Agrees store m) (apart : ∀ place, c.cell? place ≠ some cell)
    (wrote : Wrote m m' cell content) : c.Agrees store m' := by
  refine ⟨?_, ?_⟩
  · intro v mem isSlot
    rw [wrote.registers]
    exact agrees.seated v mem isSlot
  · intro place cell' ty isCell typed
    have other : cell' ≠ cell := by
      rintro rfl
      exact apart place isCell
    rw [wrote.other cell' other]
    exact agrees.holds place cell' ty isCell typed

theorem Ready.wrote (ready : c.Ready store m) (sound : c.Sound res) (isCell : c.cell? place = some cell)
    (typed : c.Cell cell ty) (h : ty.Holds x) (wrote : Wrote m m' cell (ty.word x)) :
    c.Ready (store.set place x) m' := by
  refine ⟨ready.agrees.wrote sound isCell typed h wrote, ?_⟩
  intro slot isResult
  have other : slot ≠ cell := by
    rintro rfl
    exact sound.apart slot isResult place isCell
  rw [wrote.other slot other]
  exact ready.unset slot isResult

end Writing

section Reaching
variable (c : Plan) (args : List Datum) (res : Ty)
variable {n least' j : Nat} {ending : Ending} {next : Store → Ending} {r : Option Int}
  {elseBlock thenBlock dest condBlock join : ValueId}

def Comes (m : Machine) (q : Spot) (post : Machine → Prop) : Prop :=
  ∃ n m', c.graph.Steps args n m m' ∧ m'.At q ∧ post m'

structure Keeps (store : Store) (value : Option Int) (m : Machine) : Prop where
  agrees : c.Agrees store m
  content : ∀ slot ∈ c.result, m.memory slot = value.map res.word
  holds : ∀ slot ∈ c.result, ∀ x ∈ value, res.Holds x
  void : c.result = none → value = none

def Reaches (loop : Option LoopTargets) (least : Nat) (m : Machine) (q : Spot) : Ending → Prop
  | .done .normal store => c.Comes args m q (c.Ready store)
  | .done .broken store => ∃ targets ∈ loop, c.Comes args m ⟨targets.breakBlock, 0, 0⟩ (c.Ready store)
  | .done .continued store => ∃ targets ∈ loop, c.Comes args m ⟨targets.continueBlock, 0, 0⟩ (c.Ready store)
  | .done (.returned value) store => c.Comes args m ⟨c.exit, 0, 0⟩ (c.Keeps res store value)
  | .stuck => c.graph.Halts args m .stuck
  | .unfinished => ∃ n m', least ≤ n ∧ c.graph.Steps args n m m'

variable {c args res} {loop : Option LoopTargets} {least : Nat} {m m' : Machine} {p p1 q : Spot} {store : Store}
  {sc : Scope} {e : Expr} {v : ValueId}

theorem Comes.after {post : Machine → Prop} (comes : c.Comes args m' q post) (steps : c.graph.Steps args n m m') :
    c.Comes args m q post := by
  obtain ⟨k, last, more, there, h⟩ := comes
  exact ⟨n + k, last, steps.trans more, there, h⟩

theorem Reaches.after (reaches : c.Reaches args res loop least' m' q ending)
    (steps : c.graph.Steps args n m m') (lt : least ≤ least' + n) :
    c.Reaches args res loop least m q ending := by
  match ending, reaches with
  | .done .normal _, comes => exact Comes.after comes steps
  | .done .broken _, ⟨dests, isLoop, comes⟩ => exact ⟨dests, isLoop, comes.after steps⟩
  | .done .continued _, ⟨dests, isLoop, comes⟩ => exact ⟨dests, isLoop, comes.after steps⟩
  | .done (.returned _) _, comes => exact Comes.after comes steps
  | .stuck, halts => exact steps.halts halts
  | .unfinished, ⟨k, last, enough, more⟩ => exact ⟨n + k, last, by omega, steps.trans more⟩

theorem Reaches.andThen {first : Ending} (reaches : c.Reaches args res loop least m p first)
    (tl : ∀ store m', c.Ready store m' → m'.At p → c.Reaches args res loop least m' q (next store)) :
    c.Reaches args res loop least m q (first.andThen next) := by
  match first, reaches with
  | .done .normal store, ⟨n, m', steps, there, ready⟩ =>
    exact (tl store m' ready there).after steps (Nat.le_add_right least n)
  | .done .broken _, reaches | .done .continued _, reaches | .done (.returned _) _, reaches | .stuck, reaches
  | .unfinished, reaches => exact reaches

theorem Sets.reaches {cell : ValueId} {ty : Ty} {place : Place} (sets : c.Sets args m q cell ty r)
    (sound : c.Sound res) (ready : c.Ready store m) (isCell : c.cell? place = some cell)
    (typed : c.Cell cell ty) : c.Reaches args res loop least m q (.ofStore (r.map (store.set place))) := by
  cases r with
  | none => exact sets
  | some x =>
    obtain ⟨h, n, m1, m', steps, _, step, there, frame, wrote⟩ := sets
    exact ⟨n + 1, m', steps.trans step, there, (ready.kept sound frame).wrote sound isCell typed h wrote⟩

theorem Computes.reaches (computes : c.Computes sc e p v q) (integral : e.integral sc)
    (plain : ∀ name note, e ≠ .ident name note) (sound : c.Sound res) (ready : c.Ready store m)
    (here : m.At p) : c.Reaches args res loop least m q (.ofStore ((e.eval sc store).map fun _ => store)) := by
  have made := Computes.made e integral plain _ _ _ computes
  obtain ⟨k, hit, notAddress⟩ := made.value
  have gives := Value.gives args e integral ⟨v, q, computes, .plain hit notAddress⟩ ready.agrees here
  cases val : e.eval sc store with
  | none =>
    rw [val] at gives
    exact gives
  | some x =>
    rw [val] at gives
    obtain ⟨m', arrives, _⟩ := gives
    obtain ⟨n, steps⟩ := arrives.steps
    exact ⟨n, m', steps, arrives.here, ready.kept sound arrives.frame⟩

def Turns (plan : Plan) (args : List Datum) (store : Store) (m : Machine) (thenBlock elseBlock : ValueId) :
    Option Int → Prop
  | none => plan.graph.Halts args m .stuck
  | some x => ∃ n m', plan.graph.Steps args (n + 1) m m' ∧
      m'.At ⟨if x = 0 then elseBlock else thenBlock, 0, 0⟩ ∧ plan.Ready store m'

private theorem Condition.turns (cs : c.Condition (c.Computes sc e) p v p1)
    (branches : c.Branches p1 v thenBlock elseBlock) (integral : e.integral sc) (sound : c.Sound res)
    (ready : c.Ready store m) (here : m.At p) :
    c.Turns args store m thenBlock elseBlock (e.eval sc store) := by
  have gives := Condition.gives args integral cs ready.agrees here
  cases val : e.eval sc store with
  | none =>
    rw [val] at gives
    exact gives
  | some x =>
    rw [val] at gives
    obtain ⟨m1, arrives, has⟩ := gives
    obtain ⟨n, steps⟩ := arrives.steps
    have kept dest := (ready.kept sound arrives.frame).kept sound (.goto 0 m1 dest)
    refine ⟨n, _, steps.trans (branches.step arrives.here has), ?_, kept _⟩
    by_cases isZero : x = 0
    · simp only [isZero]
      exact ⟨rfl, rfl⟩
    · simp only [isZero, bne_iff_ne, ne_eq, not_false_eq_true]
      exact ⟨rfl, rfl⟩

theorem Turns.reaches {thenEnding elseEnding : Ending} (turns : c.Turns args store m thenBlock elseBlock r)
    (lt : least ≤ least' + 1) (whenTrue : ∀ m', c.Ready store m' → m'.At ⟨thenBlock, 0, 0⟩ →
      c.Reaches args res loop least' m' q thenEnding)
    (whenFalse : ∀ m', c.Ready store m' → m'.At ⟨elseBlock, 0, 0⟩ →
      c.Reaches args res loop least' m' q elseEnding) :
    c.Reaches args res loop least m q (.choose r thenEnding elseEnding) := by
  cases r with
  | none => exact turns
  | some x =>
    obtain ⟨n, m', steps, there, ready⟩ := turns
    have enough : least ≤ least' + (n + 1) := by omega
    by_cases isZero : x = 0
    · rw [if_pos isZero] at there
      rw [Ending.choose, if_pos isZero]
      exact (whenFalse m' ready there).after steps enough
    · rw [if_neg isZero] at there
      rw [Ending.choose, if_neg isZero]
      exact (whenTrue m' ready there).after steps enough

private theorem Jumps.comes (jumps : c.Jumps p dest) (args : List Datum) (n : Nat) (sound : c.Sound res)
    (ready : c.Ready store m) (here : m.At p) : c.Comes args m ⟨dest, 0, n⟩ (c.Ready store) :=
  ⟨1, m.goto dest, jumps.step here, ⟨rfl, rfl⟩, ready.kept sound (.goto 0 m dest)⟩

theorem Reaches.jump (reaches : c.Reaches args res loop least m p ending) (jumps : c.Jumps p dest)
    (sound : c.Sound res) (n : Nat) : c.Reaches args res loop least m ⟨dest, 0, n⟩ ending := by
  match ending, reaches with
  | .done .normal store, ⟨k, m', steps, there, ready⟩ => exact (jumps.comes args n sound ready there).after steps
  | .done .broken _, reaches | .done .continued _, reaches | .done (.returned _) _, reaches | .stuck, reaches
  | .unfinished, reaches => exact reaches

theorem Reaches.again {body : Ending}
    (reaches : c.Reaches args res (some ⟨condBlock, join⟩) least' m p body) (jumps : c.Jumps p condBlock)
    (sound : c.Sound res) (lt : least ≤ least')
    (tl : ∀ store m', c.Ready store m' → m'.At ⟨condBlock, 0, 0⟩ →
      c.Reaches args res loop least m' ⟨join, 0, j⟩ (next store)) :
    c.Reaches args res loop least m ⟨join, 0, j⟩ (body.again next) := by
  match body, reaches with
  | .done .normal store, ⟨n, m', steps, there, ready⟩ =>
    obtain ⟨k, m'', more, there', ready'⟩ := jumps.comes args 0 sound ready there
    exact (tl store m'' ready' there').after (steps.trans more) (Nat.le_add_right _ _)
  | .done .continued store, ⟨_, rfl, n, m', steps, there, ready⟩ =>
    exact (tl store m' ready there).after steps (Nat.le_add_right _ _)
  | .done .broken store, ⟨_, rfl, n, m', steps, there, ready⟩ =>
    exact ⟨n, m', steps, ⟨there.block, there.index⟩, ready⟩
  | .done (.returned _) _, reaches | .stuck, reaches => exact reaches
  | .unfinished, ⟨n, m', enough, steps⟩ => exact ⟨n, m', Nat.le_trans lt enough, steps⟩

private theorem loop_reaches {cond : Store → Option Int} {body : Store → Ending} {bodyBlock : ValueId}
    (sound : c.Sound res) (turns : ∀ store m, c.Ready store m → m.At ⟨condBlock, 0, 0⟩ →
      c.Turns args store m bodyBlock join (cond store))
    (round : ∀ store m, c.Ready store m → m.At ⟨bodyBlock, 0, 0⟩ →
      c.Reaches args res (some ⟨condBlock, join⟩) least m p (body store)) (jumps : c.Jumps p condBlock) :
    ∀ rounds ≤ least, ∀ store m, c.Ready store m → m.At ⟨condBlock, 0, 0⟩ →
      c.Reaches args res loop rounds m ⟨join, 0, j⟩ (.loop cond body rounds store) := by
  intro rounds
  induction rounds with
  | zero =>
    intro _ store m _ _
    exact ⟨0, m, Nat.le_refl 0, .refl m⟩
  | succ rounds again =>
    intro lt store m ready here
    have fewer := Nat.le_of_succ_le lt
    rw [Ending.loop]
    apply (turns store m ready here).reaches (Nat.le_refl _)
    · intro m' ready' there
      exact (round store m' ready' there).again jumps sound fewer (again fewer)
    · intro m' ready' there
      exact ⟨0, m', .refl m', ⟨there.block, there.index⟩, ready'⟩

end Reaching

section Statements
variable {c : Plan} {args : List Datum} {res : Ty} {loop : Option LoopTargets} {rounds : Nat} {m : Machine}
  {p q : Spot} {store : Store} {sc : Scope}
variable {slot u v x : ValueId} {name : String} {ty lhs rhs : Ty} {base : Option ArithOp} {dest val : Expr}
  {p0 : Spot} {op : ArithOp}

private theorem cell?_slot {number : Nat} (isSlot : c.slots[number]? = some slot) : c.cell? (.slot number) = some slot :=
  isSlot

theorem Slotted.cell (slotted : c.Slotted slot ty (some name)) : c.Cell slot ty :=
  ⟨.inr ⟨ty, name, slotted⟩, slotted.ty⟩

theorem Updates.ident {op : Option Opcode} {giving : Giving}
    (updates : c.Updates op (c.Computes sc dest) giving p v q) (integral : dest.integral sc) :
    ∃ name note, dest = .ident name note := by
  by_contra plain
  obtain ⟨slot, k, p1, computes, hit, isAddress, _⟩ := updates
  have made := Computes.made dest integral (fun name note eq => plain ⟨name, note, eq⟩) _ _ _ computes
  obtain ⟨kind', found', notAddress⟩ := made.value
  cases hit.symm.trans found'
  rw [notAddress] at isAddress
  cases isAddress

theorem Binary.of_cell {op : Opcode} (binary : c.Binary p op slot u x q) (cell : c.Cell slot ty)
    (alike : lhs.Alike ty) (made : c.Made p0 u rhs p) :
    ∃ l left right p1 p2, c.Loads p slot l p1 ∧ c.Made p l lhs p1 ∧
      c.Balances p1 l u left right (lhs.common rhs) p2 ∧
      c.Puts p2 op (lhs.common rhs) [left, right] .none x q := by
  obtain ⟨left, right, common, p2, ⟨l, r, p1, _, loads, loads', balances⟩, put⟩ := binary
  obtain ⟨rfl, rfl⟩ := loads'.of_value made.value
  have madeLeft : c.Made p l lhs _ :=
    ((loads.of_cell cell).made nofun).congr (ty.alike_unqualified.trans alike.symm)
  obtain rfl := balances.common madeLeft.typed made.typed
  exact ⟨l, left, right, _, p2, loads, madeLeft, balances, put⟩

private theorem Binary.made_cell (binary : c.Binary p (op.opcode lhs rhs) slot u x q) (cell : c.Cell slot ty)
    (alike : lhs.Alike ty) (made : c.Made p0 u rhs p) : c.Made p x (lhs.common rhs) q := by
  obtain ⟨l, left, right, p1, p2, loads, madeLeft, balances, put⟩ := binary.of_cell cell alike made
  have order := balances.order madeLeft.below (made.until madeLeft.order).below
  apply (put.made _).from (Nat.le_trans madeLeft.order order)
  intro isSlot
  have isBinary := op.isBinary_opcode lhs rhs
  rw [isSlot] at isBinary
  cases isBinary

private theorem Binary.gives_cell {place : Place} {y : Int} (binary : c.Binary p (op.opcode lhs rhs) slot u x q)
    (cell : c.Cell slot ty) (isCell : c.cell? place = some slot) (alike : lhs.Alike ty)
    (made : c.Made p0 u rhs p) (isLeft : lhs.isInteger) (isRight : rhs.isInteger) (agrees : c.Agrees store m)
    (here : m.At p) (has : c.Has args m u rhs y) :
    c.Gives args m p.size q x (lhs.common rhs) ((store place).bind fun old => op.eval lhs rhs old y) := by
  obtain ⟨l, left, right, p1, p2, loads, madeLeft, balances, put⟩ := binary.of_cell cell alike made
  have loaded : c.Gives args m p.size p1 l lhs (store place) :=
    (loads.gives cell isCell (by rwa [← alike.isInteger]) agrees here).congr alike.symm
  apply loaded.bind madeLeft.order
  intro old m' _ arrives hasLeft
  exact balances.binary put (op.isBinary_opcode lhs rhs) madeLeft (made.until madeLeft.order) isLeft isRight
    arrives.here hasLeft (has.kept arrives.frame made.below) (op.compute?_opcode hasLeft.holds)
    fun z hit => ArithOp.holds_eval hit

theorem Updates.sets {note : Note} (updates : c.Updates (base.map (·.opcode note.ty val.ty))
      (c.Computes sc (.ident name note)) (c.Computes sc val) p v q) (args : List Datum) (isTarget : (Expr.ident name note).integral sc) (isValue : val.integral sc)
    (agrees : c.Agrees store m) (here : m.At p) : ∃ hit cell, sc.lookup name = some hit ∧
      c.cell? hit.place = some cell ∧ c.Cell cell hit.ty ∧ c.Sets args m q cell hit.ty
        ((Expr.combined sc store base hit.place note.ty val).map hit.ty.wrap) := by
  obtain ⟨cell, k, p1, ⟨rfl, stands⟩, _, _, cs⟩ := updates
  obtain ⟨hit, isFound, integer, alike⟩ := Expr.integral_ident isTarget
  obtain ⟨isCell, typed⟩ := stands hit isFound integer
  refine ⟨hit, cell, isFound, isCell, typed, ?_⟩
  unfold Expr.combined
  cases base with
  | none =>
    obtain ⟨u, p2, computes, assigns⟩ := cs
    rw [Option.bind_fun_some]
    exact assigns.sets args computes isValue typed integer agrees here
  | some op =>
    obtain ⟨u, x, p2, p3, cs, binary, _, _, loads, saves⟩ := cs
    have targetInteger : note.ty.isInteger := by rwa [alike.isInteger]
    have valueInteger := val.isInteger_of_integral isValue
    have made := Value.made isValue cs
    have madeResult := binary.made_cell typed alike made
    obtain ⟨rfl, rfl⟩ := loads.of_value madeResult.value
    have gives := (Value.gives args val isValue cs agrees here).bind made.order fun y m' _ arrives has =>
      binary.gives_cell typed isCell alike made targetInteger valueInteger (agrees.kept arrives.frame) arrives.here has
    exact gives.sets saves madeResult (Ty.isInteger_common targetInteger valueInteger) typed integer agrees

theorem Updates.reaches (updates : c.Updates (base.map (·.opcode dest.ty val.ty)) (c.Computes sc dest)
      (c.Computes sc val) p v q) (isTarget : dest.integral sc)
    (isValue : val.integral sc) (sound : c.Sound res) (ready : c.Ready store m) (here : m.At p) :
    c.Reaches args res loop rounds m q (.ofStore (Expr.assigned sc store base dest val)) := by
  obtain ⟨name, note, rfl⟩ := updates.ident isTarget
  obtain ⟨hit, cell, isFound, isCell, typed, sets⟩ := updates.sets args isTarget isValue ready.agrees here
  have eq : Expr.assigned sc store base (.ident name note) val =
      ((Expr.combined sc store base hit.place note.ty val).map hit.ty.wrap).map (store.set hit.place) := by
    rw [Expr.assigned, isFound, Option.map_map]
    rfl
  rw [eq]
  exact sets.reaches sound ready isCell typed

theorem Declares.reaches (sound : c.Sound res) : (decls : List Decl) → ∀ {sc store m p},
    c.Declares sc decls p q → integralDecls sc decls → c.Ready store m → m.At p →
    c.Reaches args res loop rounds m q (.ofStore (declareAll sc store decls))
  | [], sc, store, m, p, cs, _, ready, here => by
    obtain rfl := cs
    exact ⟨0, m, .refl m, here, ready⟩
  | d :: tl, sc, store, m, p, cs, integral, ready, here => by
    obtain ⟨slot, p1, isSlot, slotted, first, others⟩ := cs
    simp only [integralDecls, Bool.and_eq_true] at integral
    obtain ⟨⟨integer, isInitial⟩, isRest⟩ := integral
    have grown : m.At p.grow := ⟨here.block, here.index⟩
    rw [declareAll]
    cases initial : d.initializer with
    | none =>
      rw [initial] at first
      obtain rfl := first
      exact Declares.reaches sound tl others isRest ready grown
    | some e =>
      rw [initial] at first isInitial
      obtain ⟨u, p2, _, computes, assigns⟩ := first
      have sets := assigns.sets args computes isInitial slotted.cell integer ready.agrees grown
      have reaches : c.Reaches args res loop rounds m p1 (.ofStore _) :=
        sets.reaches sound ready (cell?_slot isSlot) slotted.cell
      rw [Option.map_map] at reaches
      show c.Reaches args res loop rounds m q (.ofStore (Option.bind _ _))
      rw [Ending.ofStore_bind]
      apply reaches.andThen
      intro store' m' ready' there
      exact Declares.reaches sound tl others isRest ready' there

/-- The code of a return gives the value that is returned. -/
theorem Leaves.reaches {val : Option Expr} (leaves : c.Leaves sc val p)
    (integral : val.all (·.integral sc)) (sound : c.Sound res) (ready : c.Ready store m)
    (here : m.At p) : c.Reaches args res loop rounds m q (Stmt.returns res sc store val) := by
  obtain ⟨p1, jumps, cs⟩ := leaves
  cases val with
  | none =>
    obtain rfl := cs
    obtain ⟨n, m', steps, there, ready'⟩ := jumps.comes args 0 sound ready here
    exact ⟨n, m', steps, there, ready'.agrees, ready'.unset, by simp, fun _ => rfl⟩
  | some e =>
    rw [Stmt.returns]
    cases isResult : c.result with
    | none =>
      rw [isResult] at cs
      obtain ⟨v, cs⟩ := cs
      have gives := Value.gives args e integral cs ready.agrees here
      cases val : e.eval sc store with
      | none =>
        rw [val] at gives
        exact gives
      | some x =>
        rw [val] at gives
        obtain ⟨m1, arrives, _⟩ := gives
        obtain ⟨n, steps⟩ := arrives.steps
        have ready1 := ready.kept sound arrives.frame
        obtain ⟨k, m', more, there, ready'⟩ := jumps.comes args 0 sound ready1 arrives.here
        refine ⟨n + k, m', steps.trans more, there, ready'.agrees, ?_, ?_, fun _ => if_pos (sound.void isResult)⟩
        · intro slot isSlot
          cases isResult.symm.trans isSlot
        · intro slot isSlot
          cases isResult.symm.trans isSlot
    | some slot =>
      rw [isResult] at cs
      obtain ⟨u, p2, _, computes, assigns⟩ := cs
      obtain ⟨name, slotted⟩ := sound.slotted slot isResult
      have integer := sound.integer slot isResult
      have sets := assigns.sets args computes integral slotted.cell integer ready.agrees here
      cases val : e.eval sc store with
      | none =>
        rw [val] at sets
        exact sets
      | some x =>
        rw [val] at sets
        obtain ⟨isHeld, n, m1, m2, pre, _, step, there, frame, wrote⟩ := sets
        have steps := pre.trans step
        have agrees := (ready.agrees.kept frame).aside (sound.apart slot isResult) wrote
        refine ⟨n + 1 + 1, m2.goto c.exit, steps.trans (jumps.step there), ⟨rfl, rfl⟩, agrees.kept (.goto 0 m2 _), ?_, ?_, ?_⟩
        · intro slot' isSlot
          cases isResult.symm.trans isSlot
          rw [Ty.isVoid_of_isInteger integer]
          exact wrote.self
        · intro _ _ y isY
          rw [Ty.isVoid_of_isInteger integer] at isY
          cases isY
          exact isHeld
        · intro missing
          cases isResult.symm.trans missing

mutual
/-- The code of a statement does what the statement means. -/
theorem Performs.reaches (args : List Datum) (sound : c.Sound res) : (s : Stmt) → ∀ {loop sc store m p q},
    c.Performs loop sc s p q → s.integral sc → c.Ready store m → m.At p →
    c.Reaches args res loop rounds m q (s.exec rounds res sc store)
  | .expr e _, loop, sc, store, m, p, q, cs, integral, ready, here => by
    cases e with
    | ident name note =>
      obtain ⟨v, rfl, _⟩ := cs
      exact ⟨0, m, .refl m, here, ready⟩
    | binary op left right note =>
      cases op with
      | assign base =>
        simp only [Stmt.integral, Bool.and_eq_true] at integral
        obtain ⟨v, updates⟩ := cs
        exact Updates.reaches updates integral.1 integral.2 sound ready here
      | arith op | compare op | logic op =>
        obtain ⟨v, computes⟩ := cs
        exact Computes.reaches computes integral nofun sound ready here
    | int | char | string | unary | call =>
      obtain ⟨v, computes⟩ := cs
      exact Computes.reaches computes integral nofun sound ready here
  | .compound body _, loop, sc, store, m, p, q, cs, integral, ready, here => by
    obtain ⟨b, n, jumps, tl, _⟩ := cs
    obtain ⟨k, m', steps, there, ready'⟩ := jumps.comes args n sound ready here
    exact (PerformsAll.reaches args sound body tl integral ready' there).after steps (Nat.le_add_right _ _)
  | .declare decls _, loop, sc, store, m, p, q, cs, integral, ready, here =>
    Declares.reaches sound decls cs integral ready here
  | .ifElse cond thenStmt none _, loop, sc, store, m, p, q, cs, integral, ready, here => by
    obtain ⟨v, thenBlock, join, p1, p2, n, k, test, branches, first, jumps, rfl, _⟩ := cs
    simp only [Stmt.integral, Bool.and_eq_true] at integral
    rw [Stmt.exec]
    apply (test.turns branches integral.1 sound ready here).reaches (Nat.le_succ rounds)
    · intro m' ready' there
      have there' : m'.At ⟨thenBlock, 0, n⟩ := ⟨there.block, there.index⟩
      exact (Performs.reaches args sound thenStmt first integral.2 ready' there').jump jumps sound k
    · intro m' ready' there
      exact ⟨0, m', .refl m', ⟨there.block, there.index⟩, ready'⟩
  | .ifElse cond thenStmt (some elseStmt) _, loop, sc, store, m, p, q, cs, integral, ready, here => by
    obtain ⟨v, thenBlock, elseBlock, join, p1, p2, p3, n, k, j, test, branches, first, jumps, second, jumps', rfl,
      _⟩ := cs
    simp only [Stmt.integral, Bool.and_eq_true] at integral
    obtain ⟨⟨isCondition, isThen⟩, isElse⟩ := integral
    rw [Stmt.exec]
    apply (test.turns branches isCondition sound ready here).reaches (Nat.le_succ rounds)
    · intro m' ready' there
      have there' : m'.At ⟨thenBlock, 0, n⟩ := ⟨there.block, there.index⟩
      exact (Performs.reaches args sound thenStmt first isThen ready' there').jump jumps sound j
    · intro m' ready' there
      have there' : m'.At ⟨elseBlock, 0, k⟩ := ⟨there.block, there.index⟩
      exact (Performs.reaches args sound elseStmt second isElse ready' there').jump jumps' sound j
  | .whileDo cond body _, loop, sc, store, m, p, q, cs, integral, ready, here => by
    obtain ⟨v, condBlock, bodyBlock, join, p1, p2, n, k, j, jumps, test, branches, round, jumps', rfl, _⟩ := cs
    simp only [Stmt.integral, Bool.and_eq_true] at integral
    have turns store' m' (ready' : c.Ready store' m') (there' : m'.At ⟨condBlock, 0, 0⟩) :
        c.Turns args store' m' bodyBlock join (cond.eval sc store') :=
      test.turns branches integral.1 sound ready' ⟨there'.block, there'.index⟩
    have rounded store' m' (ready' : c.Ready store' m') (there' : m'.At ⟨bodyBlock, 0, 0⟩) :=
      Performs.reaches args sound body round integral.2 ready' ⟨there'.block, there'.index⟩
    obtain ⟨i, m1, steps, there, ready1⟩ := jumps.comes args 0 sound ready here
    rw [Stmt.exec]
    apply Reaches.after _ steps (Nat.le_add_right rounds i)
    apply loop_reaches sound turns rounded jumps' rounds (Nat.le_refl rounds) store m1 ready1 there
  | .breakLoop _, loop, sc, store, m, p, q, cs, integral, ready, here => by
    obtain ⟨dests, isLoop, jumps, _⟩ := cs
    exact ⟨dests, isLoop, jumps.comes args 0 sound ready here⟩
  | .continueLoop _, loop, sc, store, m, p, q, cs, integral, ready, here => by
    obtain ⟨dests, isLoop, jumps, _⟩ := cs
    exact ⟨dests, isLoop, jumps.comes args 0 sound ready here⟩
  | .ret val _, loop, sc, store, m, p, q, cs, integral, ready, here => by
    exact Leaves.reaches cs.1 integral sound ready here
  | .empty _, loop, sc, store, m, p, q, cs, integral, ready, here => by
    obtain rfl := cs
    exact ⟨0, m, .refl m, here, ready⟩

theorem PerformsAll.reaches (args : List Datum) (sound : c.Sound res) : (ss : List Stmt) →
    ∀ {loop sc store m p q}, c.PerformsAll loop sc ss p q → Stmt.integralAll sc ss →
    c.Ready store m → m.At p →
    c.Reaches args res loop rounds m q (Stmt.execAll rounds res sc store ss)
  | [], loop, sc, store, m, p, q, cs, integral, ready, here => by
    obtain rfl := cs
    exact ⟨0, m, .refl m, here, ready⟩
  | s :: tl, loop, sc, store, m, p, q, cs, integral, ready, here => by
    obtain ⟨p1, first, others⟩ := cs
    simp only [Stmt.integralAll, Bool.and_eq_true] at integral
    apply (Performs.reaches args sound s first integral.1 ready here).andThen
    intro store' m' ready' there
    exact PerformsAll.reaches args sound tl others integral.2 ready' there
end

end Statements
end Plan
end Midend
