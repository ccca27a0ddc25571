import Midend.Proofs.Module.Functions
import Midend.Proofs.Module.Operations

/-! The builder gives a result wherever it is used as it should be: there is an open block to fill, the
operands are there, and addresses have pointer types. -/
namespace Midend
open List Graph

namespace Graph
variable {g t : Graph} {v : ValueId}

def Fits (ty : Ty) (limit : Option Nat) : Kind → Prop
  | .global _ => ∃ pointee, ty = .pointer pointee
  | .inst data => data.opcode = .alloca → ∃ pointee, ty = .pointer pointee
  | .block _ | .function _ => limit = none
  | _ => True

/-- Addresses have pointer types, and functions and blocks have room for operands. -/
structure Typed (g : Graph) : Prop where
  fits : ∀ v kind ty limit, g.kind? v = some kind → g.ty? v = some ty → g.limit? v = some limit →
    Fits ty limit kind

theorem exists_ty? (into : v.index < g.values.size) : ∃ ty, g.ty? v = some ty := by
  obtain ⟨d, hit⟩ := value_of_lt into
  exact ⟨d.ty, by rw [ty?, bare_eq_some hit]; rfl⟩

private theorem exists_limit? (into : v.index < g.values.size) : ∃ lim, g.limit? v = some lim := by
  obtain ⟨d, hit⟩ := value_of_lt into
  exact ⟨d.operandLimit, by rw [limit?, bare_eq_some hit]; rfl⟩

theorem exists_kind? (into : v.index < g.values.size) : ∃ k, g.kind? v = some k :=
  Option.isSome_iff_exists.1 (kind?_isSome.2 into)

namespace Typed
variable {k : Kind} {ty : Ty} {f : ValueId}

theorem pointer (typed : g.Typed) (hit : g.kind? v = some k) (isAddress : k.isAddress) :
    ∃ pointee, g.ty? v = some (.pointer pointee) := by
  obtain ⟨ty, isTy⟩ := exists_ty? (lt_of_kind? hit)
  obtain ⟨lim, isLimit⟩ := exists_limit? (lt_of_kind? hit)
  have fits := typed.fits v k ty lim hit isTy isLimit
  cases k with
  | global n =>
    obtain ⟨pointee, rfl⟩ := fits
    exact ⟨pointee, isTy⟩
  | inst d =>
    obtain ⟨pointee, rfl⟩ := fits (by simpa [Kind.isAddress] using isAddress)
    exact ⟨pointee, isTy⟩
  | _ => cases isAddress

theorem unlimited (typed : g.Typed) (hit : g.kind? v = some k) (open' : k.isBlock ∨ k.isFunction) :
    g.limit? v = some none := by
  obtain ⟨ty, isTy⟩ := exists_ty? (lt_of_kind? hit)
  obtain ⟨lim, isLimit⟩ := exists_limit? (lt_of_kind? hit)
  have fits := typed.fits v k ty lim hit isTy isLimit
  cases k with
  | block d => exact fits ▸ isLimit
  | function d => exact fits ▸ isLimit
  | _ => simp [Kind.isBlock, Kind.isFunction] at open'

theorem kept (typed : g.Typed) (each : ∀ v k, t.kind? v = some k →
      (∃ old, g.kind? v = some old ∧ (∀ ty lim, Fits ty lim old → Fits ty lim k) ∧
        t.ty? v = g.ty? v ∧ t.limit? v = g.limit? v) ∨
      ∀ ty lim, t.ty? v = some ty → t.limit? v = some lim → Fits ty lim k) : t.Typed where
  fits v k ty lim hit isTy isLimit := by
    rcases each v k hit with ⟨old, was, fits, sameTy, sameLimit⟩ | new
    · apply fits
      exact typed.fits v old ty lim was (sameTy ▸ isTy) (sameLimit ▸ isLimit)
    · exact new ty lim isTy isLimit

theorem rewired (typed : g.Typed) {change : ValueId → List (Option ValueId) → List (Option ValueId)}
    (wired : g.Rewired t change) : t.Typed := by
  apply typed.kept
  intro v k hit
  exact .inl ⟨k, wired.kind? v ▸ hit, fun _ _ fits => fits, wired.ty? v, wired.limit? v⟩

theorem add (typed : g.Typed) (valid : g.Consistent) {lim : Option Nat} (fits : Fits ty lim k) :
    (g.add k ty lim).2.Typed := by
  have added := valid.add_added k ty lim
  apply typed.kept
  intro v other hit
  rw [added.kind? v, added.ty? v, limit?_add] at *
  split at hit
  next eq =>
    cases hit
    rw [if_pos eq, if_pos eq]
    right
    rintro _ _ ⟨⟩ ⟨⟩
    exact fits
  next ne =>
    rw [if_neg ne, if_neg ne]
    exact .inl ⟨other, hit, fun _ _ fits => fits, rfl, rfl⟩

theorem blockAdded (typed : g.Typed) {b : ValueId} {n : Option String}
    (add : Builder.BlockAdded g t b f n) : t.Typed := by
  apply typed.kept
  intro v k hit
  rw [add.kind? v, add.ty? v, add.limit? v] at *
  split at hit
  next eq =>
    cases hit
    rw [if_pos eq, if_pos eq]
    right
    rintro _ _ ⟨⟩ ⟨⟩
    rfl
  next ne =>
    rw [if_neg ne, if_neg ne]
    exact .inl ⟨k, hit, fun _ _ fits => fits, rfl, rfl⟩

theorem inserted {m last : Module} {i : ValueId} {op : Opcode} {ops : List ValueId} {attr : Attr}
    {pt : InsertPoint} {d : Block} (put : Builder.Inserted m last i op ty ops attr pt d)
    (typed : m.graph.Typed) (slot : op = .alloca → ∃ pointee, ty = .pointer pointee) : last.graph.Typed := by
  apply typed.kept
  intro v k hit
  by_cases isInst : v = i
  · right
    intro ty' lim isTy _
    rw [put.kind? v, if_pos isInst] at hit
    rw [put.ty? v, if_pos isInst] at isTy
    cases hit
    cases isTy
    exact slot
  · left
    have sameTy : last.graph.ty? v = m.graph.ty? v := by rw [put.ty? v, if_neg isInst]
    rw [put.kind? v, if_neg isInst] at hit
    split at hit
    next hb =>
      cases hit
      exact ⟨.block d, hb ▸ put.block, fun _ _ fits => fits, sameTy, put.limit? v isInst⟩
    next => exact ⟨k, hit, fun _ _ fits => fits, sameTy, put.limit? v isInst⟩

theorem functionAdded (typed : g.Typed) {n : String} {argNames : List String} {args : List ValueId}
    (add : Builder.FunctionAdded g t f n ty argNames args) : t.Typed := by
  apply typed.kept
  intro v k hit
  rcases Nat.lt_or_ge v.index g.values.size with old | new
  · left
    rw [add.framed.kind? v old] at hit
    exact ⟨k, hit, fun _ _ fits => fits, add.framed.ty? v old, add.limit? v old⟩
  · right
    intro ty' lim _ isLimit
    by_cases isFunc : v = f
    · rw [isFunc, add.unlimited] at isLimit
      rw [isFunc, add.kind?] at hit
      cases hit
      cases isLimit
      rfl
    · obtain ⟨index, isArg⟩ : ∃ index, args[index]? = some v := by
        have into := lt_of_kind? hit
        rw [add.size] at into
        have above : g.values.size < v.index := by
          apply Nat.lt_of_le_of_ne new
          intro eq
          apply isFunc
          rw [add.fresh, eq]
        obtain ⟨arg, isArg⟩ : ∃ arg, args[v.index - (g.values.size + 1)]? = some arg :=
          ⟨_, getElem?_eq_getElem (by omega)⟩
        have place := (add.args _ arg isArg).1
        rw [Nat.add_sub_cancel' above] at place
        exact ⟨_, place ▸ isArg⟩
      obtain ⟨_, _, _, _, _, isKind, _⟩ := add.args index v isArg
      rw [isKind] at hit
      cases hit
      trivial

end Typed
end Graph

namespace Builder
variable {α β : Type} {m t : Module}
variable {user : ValueId}

def Runs (action : Builder α) (m : Module) (done : α → Module → Prop) : Prop :=
  ∃ value after, action m = .ok (value, after) ∧ done value after

namespace Runs
variable {done : α → Module → Prop}
variable {action : Builder α}

theorem pure {val : α} (h : done val m) : Runs (Pure.pure val) m done :=
  ⟨val, m, rfl, h⟩

theorem bind {next : α → Builder β} {last : β → Module → Prop} (first : Runs action m done)
    (second : ∀ val t, done val t → Runs (next val) t last) : Runs (action >>= next) m last := by
  obtain ⟨val, mid, acted, h⟩ := first
  obtain ⟨res, final, tl, path⟩ := second val mid h
  exact ⟨res, final, bind_ok.2 ⟨val, mid, acted, tl⟩, path⟩

theorem mono {done' : α → Module → Prop} (runs : Runs action m done)
    (better : ∀ val t, action m = .ok (val, t) → done val t → done' val t) :
    Runs action m done' := by
  obtain ⟨val, t, acted, h⟩ := runs
  exact ⟨val, t, acted, better val t acted h⟩

section Binds
variable {last : β → Module → Prop}
variable {next : Unit → Builder β}

theorem get {next : Module → Builder β} (runs : Runs (next m) m last) : Runs (MonadState.get >>= next) m last := by
  obtain ⟨val, final, acted, h⟩ := runs
  exact ⟨val, final, get_bind_ok.2 acted, h⟩

theorem modified {f : Module → Module} {next : PUnit → Builder β} (runs : Runs (next ⟨⟩) (f m) last) :
    Runs (modify f >>= next) m last := by
  obtain ⟨val, final, acted, h⟩ := runs
  exact ⟨val, final, modify_bind_ok.2 acted, h⟩

theorem ask {read : Graph → Except Fault α} {next : α → Builder β} {val : α} (hit : read m.graph = .ok val)
    (runs : Runs (next val) m last) : Runs (Builder.ask read >>= next) m last := by
  obtain ⟨res, final, acted, h⟩ := runs
  exact ⟨res, final, ask_bind_ok.2 ⟨val, hit, acted⟩, h⟩

theorem ensure {cond : Bool} {f : Fault} (met : cond = true) (runs : Runs (next ()) m last) :
    Runs (Builder.ensure cond f >>= next) m last := by
  obtain ⟨res, final, acted, h⟩ := runs
  exact ⟨res, final, ensure_bind_ok.2 ⟨met, acted⟩, h⟩

theorem change {f : Graph → Except Fault Graph} {graph : Graph} (upd : f m.graph = .ok graph)
    (runs : Runs (next ()) { m with graph } last) : Runs (Builder.change f >>= next) m last := by
  obtain ⟨res, final, acted, h⟩ := runs
  exact ⟨res, final, change_bind_ok.2 ⟨graph, upd, acted⟩, h⟩

theorem addValue {k : Kind} {ty : Ty} {lim : Option Nat} {next : ValueId → Builder β}
    (runs : Runs (next (m.graph.add k ty lim).1) { m with graph := (m.graph.add k ty lim).2 } last) :
    Runs (Builder.addValue k ty lim >>= next) m last := by
  obtain ⟨res, final, acted, h⟩ := runs
  exact ⟨res, final, addValue_bind_ok.2 acted, h⟩

end Binds

end Runs

private theorem forM_addOperand_runs {dests : List ValueId} (valid : m.graph.Consistent)
    (into : user.index < m.graph.values.size) (there : ∀ dest ∈ dests, dest.index < m.graph.values.size)
    (room : ∀ lim, m.graph.limit? user = some (some lim) →
      (m.graph.operandsOf user).length + dests.length ≤ lim) :
    Runs (dests.forM (addOperand user)) m fun _ t =>
      m.graph.Rewired t.graph (fun v old => if v = user then old ++ dests.map some else old) ∧
        t = { m with graph := t.graph } := by
  have runs : Runs (dests.forM (addOperand user)) m fun _ _ => True := by
    induction dests generalizing m with
    | nil => exact .pure trivial
    | cons dest tl ih =>
      have first : Runs (addOperand user dest) m fun _ t =>
          m.graph.Rewired t.graph (fun v old => if v = user then old ++ [some dest] else old) := by
        obtain ⟨slot, graph, add⟩ := addOperand_of_room into (there dest mem_cons_self) (by
          intro lim bounded
          have enough := room lim bounded
          rw [length_cons] at enough
          omega)
        have acted : addOperand user dest m = .ok ((), { m with graph }) :=
          bind_ok.2 ⟨slot, { m with graph }, step_ok.2 ⟨graph, add, rfl⟩, rfl⟩
        exact ⟨(), _, acted, (addOperand_ok valid acted).1⟩
      refine first.bind ?_
      intro _ mid wired
      apply ih wired.consistent
      · rwa [wired.size]
      · intro other mem
        rw [wired.size]
        exact there other (mem_cons_of_mem _ mem)
      · intro lim bounded
        rw [wired.limit?] at bounded
        have enough := room lim bounded
        rw [wired.operandsOf, if_pos rfl, length_append, length_singleton]
        rw [length_cons] at enough
        omega
  exact runs.mono fun _ t acted _ => forM_addOperand_ok valid acted

private theorem addOperand_runs {dest : ValueId} (valid : m.graph.Consistent) (unlimited : m.graph.limit? user = some none)
    (there : dest.index < m.graph.values.size) :
    Runs (addOperand user dest) m fun _ t =>
      m.graph.Rewired t.graph (fun v old => if v = user then old ++ [some dest] else old) ∧
        t = { m with graph := t.graph } := by
  obtain ⟨slot, graph, add⟩ := addOperand_of_room (lt_of_limit? unlimited) there (by
    intro lim bounded
    rw [unlimited] at bounded
    cases bounded)
  have acted : addOperand user dest m = .ok ((), { m with graph }) :=
    bind_ok.2 ⟨slot, { m with graph }, step_ok.2 ⟨graph, add, rfl⟩, rfl⟩
  exact ⟨(), _, acted, addOperand_ok valid acted⟩

section Insert
variable {pt : InsertPoint} {d : Block} {op : Opcode}
variable {i b dest : ValueId} {n : Option String} {ty : Ty}

private theorem checkPoint_runs (hb : m.graph.kind? pt.block = some (.block d))
    (allowed : ∀ last, m.graph.lastOf pt.block = some last →
      op.isTerminator = false ∧ pt.index < d.insts.length) :
    Runs (checkPoint pt op) m fun _ t => m = t := by
  apply Runs.ask (Graph.Consistent.terminator? hb)
  cases ends : m.graph.lastOf pt.block with
  | none => exact .pure rfl
  | some last =>
    obtain ⟨inner, pre⟩ := allowed last ends
    apply Runs.get
    apply Runs.ensure (by rw [inner]; rfl)
    apply Runs.ask (block_eq_ok.2 hb)
    exact ⟨(), m, ensure_ok.2 ⟨by simpa using pre, rfl⟩, rfl⟩

private theorem spliceInst_runs (valid : m.graph.Consistent) (hb : m.graph.kind? pt.block = some (.block d))
    (lt : pt.index ≤ d.insts.length) : Runs (spliceInst pt i) m fun _ _ => True := by
  obtain ⟨graph, splicing, _⟩ := valid.setKind_rekinded (lt_of_kind? hb)
    (.block { d with insts := d.insts.insertIdx pt.index i })
  refine ⟨(), { m with graph }, change_ok.2 ⟨graph, bind_eq_ok.2 ⟨_, kind_eq_ok.2 hb, ?_⟩, rfl⟩, trivial⟩
  dsimp only
  rw [if_pos lt]
  exact splicing

private theorem fill_runs {ops : List ValueId} (valid : m.graph.Consistent) (into : i.index < m.graph.values.size)
    (there : ∀ v ∈ ops, v.index < m.graph.values.size) (room : ∀ lim, m.graph.limit? i = some (some lim) →
      (m.graph.operandsOf i).length + ops.length ≤ lim)
    (hb : m.graph.kind? pt.block = some (.block d)) (lt : pt.index ≤ d.insts.length) :
    Runs (do
      ops.forM (addOperand i)
      spliceInst pt i
      modify fun m => { m with insertPoint := some { pt with index := pt.index + 1 } }
      return i) m fun _ _ => True := by
  refine (forM_addOperand_runs valid into there room).bind ?_
  intro _ mid ⟨linked, eq⟩
  refine (spliceInst_runs linked.consistent ((linked.kind? _).trans hb) lt).bind ?_
  intro _ final _
  exact .modified (.pure trivial)

/-- Inserting succeeds at a point that is open. -/
theorem insertInst_runs {ty : Ty} {operands : List ValueId} {attr : Attr} (valid : m.graph.Consistent)
    (here : m.insertPoint = some pt) (hb : m.graph.kind? pt.block = some (.block d))
    (lt : pt.index ≤ d.insts.length) (allowed : ∀ last, m.graph.lastOf pt.block = some last →
      op.isTerminator = false ∧ pt.index < d.insts.length)
    (there : ∀ v ∈ operands, v.index < m.graph.values.size) :
    Runs (insertInst op ty operands attr) m fun inst t => Inserted m t inst op ty operands attr pt d := by
  have runs : Runs (insertInst op ty operands attr) m fun _ _ => True := by
    apply Runs.get
    rw [here]
    refine (checkPoint_runs hb allowed).bind ?_
    rintro _ _ rfl
    apply Runs.addValue
    have grown := valid.add_added (.inst ⟨op, pt.block, attr⟩) ty (op.arity.map fun arity => max arity operands.length)
    have into := lt_of_kind? ((grown.kind? _).trans (if_pos rfl))
    apply Runs.get
    obtain ⟨placed, placing⟩ := modify_of_lt into fun v => { v with location := m.context? }
    have moved := relocate_rewired grown.consistent placing
    apply Runs.change placing
    refine fill_runs moved.consistent (moved.size ▸ into) ?_ ?_ ?_ lt
    · intro v mem
      rw [show placed.values.size = _ from moved.size, grown.size]
      exact Nat.lt_succ_of_lt (there v mem)
    · intro lim bounded
      rw [moved.limit?, limit?_add, if_pos rfl] at bounded
      obtain ⟨arity, _, isLimit⟩ := Option.map_eq_some_iff.1 (Option.some.inj bounded)
      have empty : m.graph.operandsOf ⟨m.graph.values.size⟩ = [] := operandsOf_nil_of_ge (Nat.le_refl _)
      rw [moved.operandsOf, grown.operandsOf, grown.fresh, empty, ← isLimit, length_nil, Nat.zero_add]
      exact Nat.le_max_right _ _
    · exact (moved.kind? _).trans (grown.kind?_of_some hb)
  apply runs.mono
  intro inst last acted _
  obtain ⟨point', data', put⟩ := insertInst_ok valid acted
  cases put.here.symm.trans here
  cases put.block.symm.trans hb
  exact put

theorem slotPosition_le (g : Graph) (entry : ValueId) : slotPosition g entry ≤ (g.code entry).length := by
  unfold slotPosition
  split
  · exact Nat.sub_le _ _
  · exact Nat.le_refl _

private theorem slotPosition_lt {g : Graph} {entry last : ValueId} (ends : g.lastOf entry = some last) :
    slotPosition g entry < (g.code entry).length := by
  have nonempty := length_pos_of_mem (mem_of_getLast? (Option.filter_eq_some_iff.1 ends).1)
  rw [slotPosition, ends, Option.isSome_some, if_pos rfl]
  omega

private theorem movePast_runs {pos : Nat} (here : m.insertPoint = some pt)
    (room : pt.block = b → pt.index + 1 < InsertPoint.indexBound) :
    Runs (movePast b pos) m fun _ _ => True := by
  apply Runs.get
  rw [here]
  dsimp only
  split
  next into =>
    have next : pt.next = .ok { pt with index := pt.index + 1 } := if_pos (room into.1)
    exact ⟨(), _, bind_ok.2 ⟨_, m, lift_ok.2 ⟨next, rfl⟩, rfl⟩, trivial⟩
  next => exact .pure trivial

/-- Reserving a slot succeeds in a function with an entry. -/
theorem alloca_runs {st : FunctionState} (valid : m.graph.Consistent) (current : m.current = some st)
    (notVoid : ty.isVoid = false) (hb : m.graph.kind? st.entry = some (.block d))
    (here : m.insertPoint = some pt) (room : pt.block = st.entry → pt.index + 1 < InsertPoint.indexBound) :
    Runs (alloca ty n) m fun slot t => Allocated m t slot ty n st.entry d := by
  have cs := code_of_kind? hb
  have runs : Runs (alloca ty n) m fun _ _ => True := by
    apply Runs.ensure (by rw [notVoid]; rfl)
    apply Runs.get
    rw [current]
    apply Runs.ask (Graph.Consistent.terminator? hb)
    apply Runs.ask (block_eq_ok.2 hb)
    have pos : (if (m.graph.lastOf st.entry).isSome then d.insts.length - 1
        else d.insts.length) = slotPosition m.graph st.entry := by
      rw [slotPosition, cs]
    dsimp only
    rw [pos]
    obtain ⟨slot, mid, inserting, _⟩ := @insertInst_runs
      { m with insertPoint := some ⟨st.entry, slotPosition m.graph st.entry⟩ } _ d .alloca
      (.pointer ty.unqualified) [] (.alloca n) valid rfl hb (cs ▸ slotPosition_le _ _)
      (fun last ends => ⟨rfl, cs ▸ slotPosition_lt ends⟩) (by simp)
    have inserted : Runs (withInsertPoint ⟨st.entry, slotPosition m.graph st.entry⟩
        (insertInst .alloca (.pointer ty.unqualified) [] (.alloca n))) m fun _ t =>
          t.insertPoint = some pt :=
      ⟨slot, _, withInsertPoint_ok.2 ⟨mid, inserting, rfl⟩, here⟩
    refine inserted.bind ?_
    intro _ final stays
    refine (movePast_runs stays room).bind ?_
    intro _ _ _
    exact .pure trivial
  apply runs.mono
  intro slot last acted _
  obtain ⟨state', data', isState, allocated⟩ := alloca_ok valid acted
  cases isState.symm.trans current
  cases allocated.inserted.block.symm.trans hb
  exact allocated

theorem createBlock_runs {f : ValueId} (valid : m.graph.Consistent) (unlimited : m.graph.limit? f = some none) :
    Runs (createBlock f n) m fun b t => BlockAdded m.graph t.graph b f n := by
  have into := lt_of_limit? unlimited
  have added := valid.add_added (.block ⟨n, [], [], [], f⟩) .label none
  have runs : Runs (createBlock f n) m fun _ _ => True := by
    apply Runs.addValue
    refine (addOperand_runs added.consistent (added.limit?_of_some unlimited)
      (lt_of_kind? ((added.kind? _).trans (if_pos rfl)))).bind ?_
    intro _ mid ⟨linked, _⟩
    have turned : Runs (turnTo f (m.graph.add (.block ⟨n, [], [], [], f⟩) .label none).1) mid
        fun _ _ => True := by
      apply Runs.get
      split
      · exact .pure trivial
      · have stays : f.index < mid.graph.values.size := by
          rw [linked.size, added.size]
          exact Nat.lt_succ_of_lt into
        exact .ask (linked.consistent.operand stays 0) ⟨_, _, rfl, trivial⟩
    refine turned.bind ?_
    intro _ _ _
    exact .pure trivial
  apply runs.mono
  intro b last acted _
  exact (createBlock_ok valid acted).1

theorem setInsertPoint_runs (hb : m.graph.kind? b = some (.block d)) :
    Runs (setInsertPoint b) m fun _ t =>
      t = { m with insertPoint := some ⟨b, (m.graph.code b).length⟩ } := by
  have runs : Runs (setInsertPoint b) m fun _ _ => True := by
    apply Runs.ask (block_eq_ok.2 hb)
    apply Runs.ask (kind_eq_ok.2 hb)
    exact .ensure rfl ⟨_, _, rfl, trivial⟩
  apply runs.mono
  intro _ last acted _
  exact (setInsertPoint_ok acted).2

private theorem addEdge_runs (valid : m.graph.Consistent) (here : m.insertPoint = some pt)
    (there : pt.block.index < m.graph.values.size) (unlimited : m.graph.limit? dest = some none) :
    Runs (addEdge dest) m fun _ t => m.graph.Rewired t.graph
          (fun v old => old ++ ([dest].filter (· = v)).map fun _ => some pt.block) ∧
        t = { m with graph := t.graph } := by
  have runs : Runs (addEdge dest) m fun _ _ => True := by
    apply Runs.get
    rw [Module.insertBlock?, here]
    obtain ⟨val, last, acted, _⟩ := addOperand_runs valid unlimited there
    exact ⟨val, last, acted, trivial⟩
  apply runs.mono
  intro _ last acted _
  exact addEdge_ok valid here acted

theorem jump_runs {b : Block} (valid : m.graph.Consistent) (here : m.insertPoint = some pt)
    (hb : m.graph.kind? pt.block = some (.block d)) (lt : pt.index ≤ d.insts.length)
    (ho : m.graph.lastOf pt.block = none) (isTarget : m.graph.kind? dest = some (.block b))
    (unlimited : m.graph.limit? dest = some none) : Runs (jump dest) m fun _ _ => True := by
  apply Runs.ask (kind_eq_ok.2 isTarget)
  apply Runs.ensure rfl
  refine (insertInst_runs valid here hb lt (by simp [ho]) ?_).bind ?_
  · intro v mem
    rw [mem_singleton.1 mem]
    exact lt_of_kind? isTarget
  intro i mid put
  have older : ∀ v : ValueId, v.index < m.graph.values.size → v ≠ i := fun v => put.ne_of_lt
  have advanced : mid.insertPoint = some { pt with index := pt.index + 1 } := by rw [put.module]
  refine (addEdge_runs put.consistent advanced ?_ ?_).bind ?_
  · rw [put.size]
    exact Nat.lt_succ_of_lt (lt_of_kind? hb)
  · rw [put.limit? _ (older dest (lt_of_kind? isTarget)), unlimited]
  intro _ _ _
  exact .pure trivial

theorem branch_runs {cond thenBlock elseBlock : ValueId} (valid : m.graph.Consistent)
    (here : m.insertPoint = some pt) (hb : m.graph.kind? pt.block = some (.block d))
    (lt : pt.index ≤ d.insts.length) (ho : m.graph.lastOf pt.block = none)
    (isTy : m.graph.ty? cond = some ty) (isBool : ty.isBool) (thenLimit : m.graph.limit? thenBlock = some none)
    (elseLimit : m.graph.limit? elseBlock = some none) :
    Runs (branch cond thenBlock elseBlock) m fun _ _ => True := by
  apply Runs.ask (ty_eq_ok.2 isTy)
  apply Runs.ensure isBool
  have thenThere := lt_of_limit? thenLimit
  have elseThere := lt_of_limit? elseLimit
  refine (insertInst_runs valid here hb lt (by simp [ho]) ?_).bind ?_
  · intro v mem
    simp only [mem_cons, not_mem_nil, or_false] at mem
    rcases mem with rfl | rfl | rfl
    · exact lt_of_ty? isTy
    · exact thenThere
    · exact elseThere
  intro i mid put
  have advanced : mid.insertPoint = some { pt with index := pt.index + 1 } := by rw [put.module]
  have there : pt.block.index < mid.graph.values.size := by
    rw [put.size]
    exact Nat.lt_succ_of_lt (lt_of_kind? hb)
  refine (addEdge_runs put.consistent advanced there ?_).bind ?_
  · rw [put.limit? _ (put.ne_of_lt thenThere), thenLimit]
  intro _ last ⟨linked, eq⟩
  have stays : last.insertPoint = some { pt with index := pt.index + 1 } := by
    rw [eq]
    exact advanced
  refine (addEdge_runs linked.consistent stays (linked.size ▸ there) ?_).bind ?_
  · rw [linked.limit?, put.limit? _ (put.ne_of_lt elseThere), elseLimit]
  intro _ _ _
  exact .pure trivial

end Insert
section Functions
variable {f : ValueId}

theorem moveBlockToEnd_runs (valid : m.graph.Consistent) (into : f.index < m.graph.values.size)
    (b : ValueId) : Runs (moveBlockToEnd f b) m fun _ _ => True := by
  obtain ⟨d, hit⟩ := value_of_lt into
  obtain ⟨graph, moved, _⟩ := valid.moveBlock_rewired into b d.operands.length
  refine ⟨(), { m with graph }, change_ok.2 ⟨graph, bind_eq_ok.2 ⟨d.operands.length, ?_, moved⟩, rfl⟩, trivial⟩
  exact map_eq_ok.2 ⟨d, hit, rfl⟩

private theorem mapM_addValue_runs {items : List α} {k : α → Kind} {ty : α → Ty} {lim : Option Nat} :
    Runs (items.mapM fun item => addValue (k item) (ty item) lim) m fun _ _ => True := by
  induction items generalizing m with
  | nil => exact .pure trivial
  | cons item tl ih =>
    rw [mapM_cons]
    apply Runs.addValue
    refine ih.bind ?_
    intro _ _ _
    exact .pure trivial

theorem createFunction_runs {n : String} {ty : Ty} {argNames : List String} (valid : m.graph.Consistent)
    (isFunc : ty.isFunc) (arity : ty.paramTypes.length = argNames.length) :
    Runs (createFunction n ty argNames) m fun _ _ => True := by
  apply Runs.ensure isFunc
  apply Runs.ensure (by simpa using arity)
  apply Runs.addValue
  have added := valid.add_added (.function ⟨n, []⟩) ty none
  obtain ⟨args, mid, making, _⟩ := @mapM_addValue_runs _
    { m with graph := (m.graph.add (.function ⟨n, []⟩) ty none).2 } (ty.paramTypes.zip argNames).zipIdx
    (fun item => .argument item.2 item.1.2) (fun item => item.1.1) (some 0)
  obtain ⟨made, _⟩ := mapM_addValue_ok added.consistent making
  have into : (m.graph.add (.function ⟨n, []⟩) ty none).1.index < mid.graph.values.size :=
    Nat.lt_of_lt_of_le (lt_of_kind? ((added.kind? _).trans (if_pos rfl))) made.framed.size
  obtain ⟨graph, changing, _⟩ := made.consistent.setKind_rekinded into (.function ⟨n, args⟩)
  refine ⟨_, _, bind_ok.2 ⟨args, mid, making, change_bind_ok.2 ⟨graph, changing, rfl⟩⟩, trivial⟩

section
variable (valid : m.graph.Consistent)
include valid

theorem createGlobal_runs {n : String} {ty : Ty} {initial : Option ValueId}
    (typed : m.graph.Typed) (there : ∀ v ∈ initial, v.index < m.graph.values.size) :
    Runs (createGlobal n ty initial) m fun _ t => t.graph.Typed := by
  apply Runs.addValue
  have added := valid.add_added (.global n) (.pointer ty) (some 1)
  have typed' : (m.graph.add (.global n) (.pointer ty) (some 1)).2.Typed := typed.add valid ⟨ty, rfl⟩
  cases initial with
  | none => exact ⟨_, _, rfl, typed'⟩
  | some val =>
    obtain ⟨slot, graph, linking⟩ := @Graph.addOperand_of_room (m.graph.add (.global n) (.pointer ty) (some 1)).2
      (m.graph.add (.global n) (.pointer ty) (some 1)).1 val
      (lt_of_kind? ((added.kind? _).trans (if_pos rfl)))
      (Nat.lt_of_lt_of_le (there val rfl) (added.size ▸ Nat.le_succ _)) (by
        intro lim bounded
        have empty : m.graph.operandsOf ⟨m.graph.values.size⟩ = [] := operandsOf_nil_of_ge (Nat.le_refl _)
        rw [limit?_add, if_pos rfl] at bounded
        cases bounded
        rw [added.operandsOf, added.fresh, empty]
        exact Nat.zero_lt_one)
    exact ⟨_, _, bind_ok.2 ⟨(), _, bind_ok.2 ⟨slot, _, step_ok.2 ⟨graph, linking, rfl⟩, rfl⟩, rfl⟩,
      typed'.rewired (addOperand_rewired added.consistent linking)⟩

private theorem dropOperands_runs {v : ValueId} (into : v.index < m.graph.values.size) :
    Runs (change (·.dropOperands v)) m fun _ t =>
      m.graph.Rewired t.graph (fun w old => if w = v then [] else old) := by
  obtain ⟨graph, dropping, wired⟩ := valid.dropOperands_rewired into
  exact ⟨(), { m with graph }, change_ok.2 ⟨graph, dropping, rfl⟩, wired⟩

private theorem forM_dropOperands_runs {values : List ValueId} (there : ∀ v ∈ values, v.index < m.graph.values.size) :
    Runs (values.forM fun v => change (·.dropOperands v)) m fun _ _ => True := by
  induction values generalizing m with
  | nil => exact .pure trivial
  | cons v tl ih =>
    refine (dropOperands_runs valid (there v mem_cons_self)).bind ?_
    intro _ mid wired
    apply ih wired.consistent
    intro other mem
    rw [wired.size]
    exact there other (mem_cons_of_mem _ mem)

private theorem dropBlock_runs {b : ValueId} {d : Block} (hb : m.graph.kind? b = some (.block d))
    (there : ∀ i ∈ d.insts, i.index < m.graph.values.size) :
    Runs (dropBlock b) m fun _ t =>
      m.graph.Rewired t.graph (fun w old => if w = b ∨ w ∈ m.graph.code b then [] else old) := by
  have runs : Runs (dropBlock b) m fun _ _ => True := by
    apply Runs.ask (block_eq_ok.2 hb)
    obtain ⟨_, mid, dropping, _⟩ := forM_dropOperands_runs valid there
    have wired := (forM_dropOperands_ok valid dropping).1
    obtain ⟨_, last, dropping', _⟩ := dropOperands_runs wired.consistent (wired.size ▸ lt_of_kind? hb)
    exact ⟨_, last, bind_ok.2 ⟨_, mid, dropping, dropping'⟩, trivial⟩
  apply runs.mono
  intro _ last acted _
  exact (dropBlock_ok valid acted).1

private theorem forM_dropBlock_runs {bs : List ValueId}
    (there : ∀ b ∈ bs, ∃ d, m.graph.kind? b = some (.block d) ∧
      ∀ i ∈ d.insts, i.index < m.graph.values.size) : Runs (bs.forM dropBlock) m fun _ _ => True := by
  induction bs generalizing m with
  | nil => exact .pure trivial
  | cons b tl ih =>
    obtain ⟨d, hb, insts⟩ := there b mem_cons_self
    refine (dropBlock_runs valid hb insts).bind ?_
    intro _ mid wired
    apply ih wired.consistent
    intro other mem
    rw [wired.size, wired.kind?]
    exact there other (mem_cons_of_mem _ mem)

theorem removeFunction_runs {d : Func} (isFn : m.graph.kind? f = some (.function d))
    (there : ∀ b ∈ m.graph.layout f, ∃ d, m.graph.kind? b = some (.block d) ∧
      ∀ i ∈ d.insts, i.index < m.graph.values.size) : Runs (removeFunction f) m fun _ _ => True := by
  have into := lt_of_kind? isFn
  apply Runs.ask (valid.functionBlocks into)
  obtain ⟨_, m1, dropping, _⟩ := forM_dropBlock_runs valid there
  have first := (forM_dropBlock_ok valid dropping).1
  obtain ⟨_, m2, dropping', second⟩ := dropOperands_runs first.consistent (first.size ▸ into)
  obtain ⟨graph, removing, third⟩ := second.consistent.removeFromUsers_rewired (second.size ▸ first.size ▸ into)
  have stays : graph.kind? f = some (.function d) := by
    rw [third.kind?, second.kind?, first.kind?, isFn]
  refine ⟨_, _, bind_ok.2 ⟨_, m1, dropping, bind_ok.2 ⟨_, m2, dropping', change_bind_ok.2 ⟨graph, removing,
    ask_bind_ok.2 ⟨d, function_eq_ok.2 stays, rfl⟩⟩⟩⟩, trivial⟩

end

end Functions
end Builder
end Midend
