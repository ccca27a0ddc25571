import Mathlib.Data.List.Basic
import Midend.Lower.Expr
import Midend.Proofs.Module.Steps

/-! Building code in two modules at once. Two modules are alike if one becomes the other when
values are renamed; the graphs may differ in values that have no counterpart. Whatever a
computation does to a module, it does to one that is like it. -/
namespace Midend
open List Graph

section Rename
variable (f : ValueId → ValueId)

def Block.rename (data : Block) : Block :=
  ⟨data.name, data.insts.map f, data.preds.map f, data.succs.map f, f data.parent⟩

private theorem Block.length_rename (d : Block) : (d.rename f).insts.length = d.insts.length :=
  length_map _

def Kind.rename : Kind → Kind
  | .function func => .function ⟨func.name, func.args.map f⟩
  | .block data => .block (data.rename f)
  | .inst data => .inst ⟨data.opcode, f data.parent, data.attr⟩
  | kind => kind

@[simp]
theorem Kind.isAddress_rename (k : Kind) : (k.rename f).isAddress = k.isAddress := by
  cases k <;> rfl

@[simp]
theorem Kind.isBlock_rename (k : Kind) : (k.rename f).isBlock = k.isBlock := by
  cases k <;> rfl

@[simp]
theorem Kind.opcode?_rename (k : Kind) : (k.rename f).opcode? = k.opcode? := by
  cases k <;> rfl

end Rename

/-- What is made for the body of a function. Constants and arguments have no room for operands. -/
def Kind.Built (limit : Option Nat) : Kind → Prop
  | .constInt _ | .constStr _ | .argument .. => limit = some 0
  | .block _ | .inst _ => True
  | .function _ | .global _ => False

namespace ScopeTable
variable {α β : Type} (f : α → β)

def map (table : ScopeTable α) : ScopeTable β where
  inner := table.inner.map (List.map (Prod.map id f))
  outermost := table.outermost.map (Prod.map id f)

private theorem lookup_map_bindings (bindings : Bindings α) (n : String) :
    List.lookup n (bindings.map (Prod.map id f)) = (bindings.lookup n).map f := by
  induction bindings with
  | nil => rfl
  | cons binding tl ih =>
    obtain ⟨lt, val⟩ := binding
    simp only [map_cons, Prod.map_apply, id_eq, lookup_cons, ih]
    split <;> rfl

@[simp]
theorem lookup_map (table : ScopeTable α) (n : String) : (table.map f).lookup n = (table.lookup n).map f := by
  have inner : (table.map f).inner.findSome? (·.lookup n) = (table.inner.findSome? (·.lookup n)).map f := by
    rw [map, findSome?_map]
    induction table.inner with
    | nil => rfl
    | cons sc tl ih =>
      simp only [findSome?_cons, Function.comp_apply, lookup_map_bindings]
      cases sc.lookup n with
      | none => exact ih
      | some val => rfl
  rw [lookup, inner, map, lookup_map_bindings, lookup]
  cases table.inner.findSome? (·.lookup n) <;> rfl

@[simp]
theorem push_map (table : ScopeTable α) : (table.map f).push = table.push.map f := rfl

@[simp]
theorem pop_map (table : ScopeTable α) : (table.map f).pop = table.pop.map f := by
  simp [pop, map, map_tail]

@[simp]
theorem insert_map (table : ScopeTable α) (n : String) (val : α) :
    (table.map f).insert n (f val) = (table.insert n val).map f := by
  rcases table with ⟨_ | ⟨sc, tl⟩, outermost⟩ <;> rfl

@[simp]
theorem insertGlobal_map (table : ScopeTable α) (n : String) (val : α) :
    (table.map f).insertGlobal n (f val) = (table.insertGlobal n val).map f := rfl

private theorem filter_map_bindings (bindings : Bindings α) (n : String) :
    (bindings.map (Prod.map id f)).filter (·.1 ≠ n) = (bindings.filter (·.1 ≠ n)).map (Prod.map id f) := by
  rw [filter_map]
  rfl

@[simp]
theorem remove_map (table : ScopeTable α) (n : String) : (table.map f).remove n = (table.remove n).map f := by
  simp only [remove, map, map_map, filter_map_bindings]
  congr 1
  exact map_congr_left fun sc _ => filter_map_bindings f sc n

end ScopeTable

structure Likeness where
  rename : ValueId → ValueId
  graph : Graph → Graph → Prop
  report : Report → Report → Prop
  movable : ValueId → Prop
  injective : rename.Injective
  consistent : ∀ {g g'}, graph g g' → g.Consistent ∧ g'.Consistent
  kind : ∀ {g g'}, graph g g' → ∀ v, g.kind? (rename v) = (g'.kind? v).map (Kind.rename rename)
  ty : ∀ {g g'}, graph g g' → ∀ v, g.ty? (rename v) = g'.ty? v
  operands : ∀ {g g'}, graph g g' → ∀ v,
    g.operandsOf (rename v) = (g'.operandsOf v).map (Option.map rename)
  add : ∀ {g g'}, graph g g' → ∀ kind ty limit, kind.Built limit →
    (g.add (Kind.rename rename kind) ty limit).1 = rename (g'.add kind ty limit).1 ∧
      graph (g.add (Kind.rename rename kind) ty limit).2 (g'.add kind ty limit).2
  addOperand : ∀ {g g'}, graph g g' → ∀ user target slot after,
    g.addOperand (rename user) (some (rename target)) = .ok (slot, after) →
      ∃ slot' after', g'.addOperand user (some target) = .ok (slot', after') ∧ graph after after'
  addAt : ∀ {g g'}, graph g g' → ∀ kind ty limit location after, kind.Built limit →
    (g.add (Kind.rename rename kind) ty limit).2.modify (g.add (Kind.rename rename kind) ty limit).1
        (fun data => { data with location }) = .ok after →
      ∃ after', (g'.add kind ty limit).2.modify (g'.add kind ty limit).1 (fun data => { data with location }) =
        .ok after' ∧ graph after after'
  setBlock : ∀ {g g'}, graph g g' → ∀ v old data after, g'.kind? v = some (.block old) →
    g.setKind (rename v) (.block (data.rename rename)) = .ok after →
      ∃ after', g'.setKind v (.block data) = .ok after' ∧ graph after after'
  setOperand : ∀ {g g'}, graph g g' → ∀ user index target after, movable user →
    g.setOperand (rename user) index (target.map rename) = .ok after →
      ∃ after', g'.setOperand user index target = .ok after' ∧ graph after after'
  reported : ∀ {r r'}, report r r' → ∀ d, report (r.add d) (r'.add d)

namespace Likeness
variable (L : Likeness)

def point (p : InsertPoint) : InsertPoint := ⟨L.rename p.block, p.index⟩

def state (s : FunctionState) : FunctionState :=
  ⟨L.rename s.function, L.rename s.entry, s.exit.map L.rename, s.returnSlot.map L.rename⟩

/-- Two modules that are alike, while constructs at the same places are lowered. -/
structure Alike (contexts : List Location) (m m' : Module) : Prop where
  graph : L.graph m.graph m'.graph
  functions : m.functions = m'.functions.map L.rename
  symbols : m.symbols = m'.symbols.map L.rename
  places : m.contexts = contexts
  places' : m'.contexts = contexts
  insertPoint : m.insertPoint = m'.insertPoint.map L.point
  current : m.current = m'.current.map L.state
  report : L.report m.report m'.report

variable {L} {g g' : Graph} {v : ValueId}

theorem inside (alike : L.graph g g') : (L.rename v).index < g.values.size ↔ v.index < g'.values.size := by
  rw [← kind?_isSome, ← kind?_isSome, L.kind alike, Option.isSome_map]

theorem block (alike : L.graph g g') {d : Block} (hit : g.kind? (L.rename v) = some (.block d)) :
    ∃ data', g'.kind? v = some (.block data') ∧ d = data'.rename L.rename := by
  rw [L.kind alike] at hit
  obtain ⟨k, found', eq⟩ := Option.map_eq_some_iff.1 hit
  cases k with
  | block data' =>
    cases eq
    exact ⟨data', found', rfl⟩
  | _ => cases eq

theorem isTerminator (alike : L.graph g g') (v : ValueId) : g.isTerminator (L.rename v) = g'.isTerminator v := by
  rw [Graph.isTerminator, Graph.opcode?, L.kind alike, Graph.isTerminator, Graph.opcode?, Option.bind_map]
  congr 2
  exact funext fun k => Kind.opcode?_rename L.rename k

theorem lastOf (alike : L.graph g g') (d : Block) : (d.rename L.rename).insts.getLast?.filter g.isTerminator =
      (d.insts.getLast?.filter g'.isTerminator).map L.rename := by
  rw [Block.rename, getLast?_map]
  cases d.insts.getLast? with
  | none => rfl
  | some last =>
    rw [Option.map_some, Option.filter_some, Option.filter_some, L.isTerminator alike]
    split <;> rfl

theorem setOperands {user : ValueId} (movable : L.movable user) (dests : List (Option ValueId)) (s0 : Nat)
    (like : L.graph g g') {t : Graph} (done : ((dests.map (Option.map L.rename)).zipIdx s0).foldlM
      (fun g dest => g.setOperand (L.rename user) dest.2 dest.1) g = .ok t) :
    ∃ after', (dests.zipIdx s0).foldlM (fun g dest => g.setOperand user dest.2 dest.1) g' = .ok after' ∧
      L.graph t after' := by
  induction dests generalizing g g' s0 with
  | nil =>
    cases done
    exact ⟨g', rfl, like⟩
  | cons dest tl ih =>
    obtain ⟨mid, first, next⟩ := bind_eq_ok.1 done
    obtain ⟨middle', first', like1⟩ := L.setOperand like _ _ _ _ movable first
    obtain ⟨after', next', like2⟩ := ih (s0 + 1) like1 next
    exact ⟨after', bind_eq_ok.2 ⟨middle', first', next'⟩, like2⟩

theorem moveBlock (like : L.graph g g') {fn : ValueId} (movable : L.movable fn) (b : ValueId) (pos : Nat)
    (t : Graph) (done : g.moveBlock (L.rename fn) (L.rename b) pos = .ok t) :
    ∃ after', g'.moveBlock fn b pos = .ok after' ∧ L.graph t after' := by
  have valid := L.consistent like
  obtain ⟨bs, read, moving⟩ := bind_eq_ok.1 done
  obtain ⟨d, old, _⟩ := bind_eq_ok.1 read
  have into := lt_of_value old
  have read' := valid.2.operands ((L.inside like).1 into)
  rw [valid.1.operands into, L.operands like] at read
  cases read
  have index : ((g'.operandsOf fn).map (Option.map L.rename)).findIdx? (· == some (L.rename b)) =
      (g'.operandsOf fn).findIdx? (· == some b) := by
    rw [findIdx?_map]
    congr 1
    funext slot
    cases slot with
    | none => rfl
    | some v =>
      rw [Function.comp_apply, Option.map_some, Bool.eq_iff_iff, beq_iff_eq, beq_iff_eq, Option.some_inj,
        Option.some_inj, L.injective.eq_iff]
  rw [index] at moving
  cases hit : (g'.operandsOf fn).findIdx? (· == some b) with
  | none =>
    rw [hit] at moving
    cases moving
    refine ⟨g', bind_eq_ok.2 ⟨_, read', ?_⟩, like⟩
    rw [hit]
    rfl
  | some i =>
    rw [hit] at moving
    simp only [eraseIdx_map, length_map, ← Option.map_some, ← map_insertIdx] at moving
    obtain ⟨after', set, like'⟩ := L.setOperands movable _ 0 like moving
    refine ⟨after', bind_eq_ok.2 ⟨_, read', ?_⟩, like'⟩
    rw [hit]
    exact set

end Likeness

namespace Builder
variable {α β γ δ : Type}

def Matched (L : Likeness) (contexts : List Location) (f : β → α) (x : Builder α) (y : Builder β) : Prop :=
  ∀ m m', L.Alike contexts m m' → ∀ result after, x m = .ok (result, after) →
    ∃ result' after', y m' = .ok (result', after') ∧ result = f result' ∧ L.Alike contexts after after'

namespace Matched
variable {L : Likeness} {ctx : List Location} {f : β → α} {x : Builder α} {y : Builder β}
variable {h : δ → γ} {e : Fault}

theorem pure (val : β) : Matched L ctx f (pure (f val)) (pure val) := by
  intro m m' alike res t ran
  obtain ⟨eq, rfl⟩ := pure_ok.1 ran
  exact ⟨val, m', rfl, eq.symm, alike⟩

theorem bind {next : α → Builder γ} {next' : β → Builder δ} (first : Matched L ctx f x y)
    (second : ∀ val, Matched L ctx h (next (f val)) (next' val)) :
    Matched L ctx h (x >>= next) (y >>= next') := by
  intro m m' alike res t ran
  obtain ⟨val, mid, ran1, ran2⟩ := bind_ok.1 ran
  obtain ⟨value', middle', ran1', eq, alike1⟩ := first m m' alike val mid ran1
  subst eq
  obtain ⟨result', after', ran2', eq, alike2⟩ := second value' mid middle' alike1 res t ran2
  exact ⟨result', after', bind_ok.2 ⟨value', middle', ran1', ran2'⟩, eq, alike2⟩

theorem fault : Matched L ctx f (Builder.fault e) y :=
  fun _ _ _ _ _ ran => absurd ran fault_ok

theorem ensure {cond : Bool} {e' : Fault} :
    Matched L ctx id (Builder.ensure cond e) (Builder.ensure cond e') := by
  intro m m' alike res t ran
  obtain ⟨holds, rfl⟩ := ensure_ok.1 ran
  exact ⟨(), m', ensure_ok.2 ⟨holds, rfl⟩, rfl, alike⟩

theorem ask {read : Graph → Except Fault α} {read' : Graph → Except Fault β}
    (eq : ∀ g g', L.graph g g' → ∀ val, read g = .ok val → ∃ value', read' g' = .ok value' ∧ val = f value') :
    Matched L ctx f (Builder.ask read) (Builder.ask read') := by
  intro m m' alike res t ran
  obtain ⟨hit, rfl⟩ := ask_ok.1 ran
  obtain ⟨value', found', eq⟩ := eq _ _ alike.graph _ hit
  exact ⟨value', m', ask_ok.2 ⟨found', rfl⟩, eq, alike⟩

theorem get {next : Module → Builder α} {next' : Module → Builder β}
    (each : ∀ m m', L.Alike ctx m m' → Matched L ctx f (next m) (next' m')) :
    Matched L ctx f (MonadState.get >>= next) (MonadState.get >>= next') :=
  fun m m' alike res t ran => each m m' alike m m' alike res t ran

theorem modified {h h' : Module → Module} (each : ∀ m m', L.Alike ctx m m' → L.Alike ctx (h m) (h' m')) :
    Matched L ctx id (modify h) (modify h') := by
  intro m m' alike res t ran
  obtain rfl := modify_ok.1 ran
  exact ⟨⟨⟩, h' m', rfl, rfl, each m m' alike⟩

theorem change {h h' : Graph → Except Fault Graph}
    (each : ∀ g g', L.graph g g' → ∀ t, h g = .ok t → ∃ after', h' g' = .ok after' ∧ L.graph t after') :
    Matched L ctx id (Builder.change h) (Builder.change h') := by
  intro m m' alike res t ran
  obtain ⟨graph, upd, rfl⟩ := change_ok.1 ran
  obtain ⟨graph', changed', like⟩ := each _ _ alike.graph _ upd
  exact ⟨(), _, change_ok.2 ⟨graph', changed', rfl⟩, rfl, { alike with graph := like }⟩

theorem forM {each : γ → Builder PUnit} {each' : δ → Builder PUnit}
    (matched : ∀ item, Matched L ctx id (each (h item)) (each' item)) (items : List δ) :
    Matched L ctx id ((items.map h).forM each) (items.forM each') := by
  induction items with
  | nil => exact pure PUnit.unit
  | cons item tl ih => exact (matched item).bind fun _ => ih

theorem mapM {each : γ → Builder α} {each' : δ → Builder β}
    (matched : ∀ item, Matched L ctx f (each (h item)) (each' item)) (items : List δ) :
    Matched L ctx (List.map f) ((items.map h).mapM each) (items.mapM each') := by
  induction items with
  | nil => exact pure []
  | cons item tl ih =>
    rw [map_cons, mapM_cons, mapM_cons]
    refine (matched item).bind fun val => ih.bind fun values => ?_
    exact pure (val :: values)

end Matched

section Operations
variable {L : Likeness} {ctx : List Location}
variable {k : Kind} {lim : Option Nat} {f : β → α}

theorem ask_kind_matched (v : ValueId) :
    Matched L ctx (Kind.rename L.rename) (ask (·.kind (L.rename v))) (ask (·.kind v)) := by
  refine .ask fun g g' like k hit => ?_
  rw [kind_eq_ok, L.kind like] at hit
  obtain ⟨kind', found', rfl⟩ := Option.map_eq_some_iff.1 hit
  exact ⟨kind', kind_eq_ok.2 found', rfl⟩

theorem ask_ty_matched (v : ValueId) : Matched L ctx id (ask (·.ty (L.rename v))) (ask (·.ty v)) := by
  refine .ask fun g g' like ty hit => ?_
  rw [ty_eq_ok, L.ty like] at hit
  exact ⟨ty, ty_eq_ok.2 hit, rfl⟩

theorem ask_block_matched (v : ValueId) :
    Matched L ctx (Block.rename L.rename) (ask (·.block (L.rename v))) (ask (·.block v)) := by
  refine .ask fun g g' like d hit => ?_
  obtain ⟨data', found', eq⟩ := L.block like (block_eq_ok.1 hit)
  exact ⟨data', block_eq_ok.2 found', eq⟩

theorem ask_terminator?_matched (b : ValueId) :
    Matched L ctx (Option.map L.rename) (ask (·.terminator? (L.rename b))) (ask (·.terminator? b)) := by
  refine .ask fun g g' like last hit => ?_
  obtain ⟨d, hb, isLast⟩ := bind_eq_ok.1 hit
  obtain ⟨data', isBlock', rfl⟩ := L.block like (block_eq_ok.1 hb)
  refine ⟨_, bind_eq_ok.2 ⟨data', block_eq_ok.2 isBlock', rfl⟩, ?_⟩
  exact (pure_eq_ok.1 isLast).symm.trans (L.lastOf like data')

private theorem addValue_matched (built : k.Built lim) (ty : Ty) :
    Matched L ctx L.rename (addValue (k.rename L.rename) ty lim) (addValue k ty lim) := by
  intro m m' alike v t ran
  obtain ⟨rfl, rfl⟩ := addValue_ok.1 ran
  obtain ⟨eq, like⟩ := L.add alike.graph k ty lim built
  exact ⟨_, _, addValue_ok.2 ⟨rfl, rfl⟩, eq, { alike with graph := like }⟩

theorem addOperand_matched (user dest : ValueId) :
    Matched L ctx id (addOperand (L.rename user) (L.rename dest)) (addOperand user dest) := by
  intro m m' alike _ t ran
  obtain ⟨slot, mid, stepped, done⟩ := bind_ok.1 ran
  obtain ⟨_, rfl⟩ := pure_ok.1 done
  obtain ⟨graph, add, rfl⟩ := step_ok.1 stepped
  obtain ⟨slot', graph', added', like⟩ := L.addOperand alike.graph _ _ _ _ add
  exact ⟨(), _, bind_ok.2 ⟨slot', _, step_ok.2 ⟨graph', added', rfl⟩, rfl⟩, rfl, { alike with graph := like }⟩

private theorem checkPoint_matched (pt : InsertPoint) (op : Opcode) :
    Matched L ctx id (checkPoint (L.point pt) op) (checkPoint pt op) := by
  refine (ask_terminator?_matched pt.block).bind fun last => ?_
  cases last with
  | none => exact .pure ()
  | some last =>
    refine .get fun _ _ _ => Matched.ensure.bind fun _ => (ask_block_matched pt.block).bind fun d => ?_
    dsimp only
    rw [Block.length_rename]
    exact .ensure

private theorem spliceInst_matched (pt : InsertPoint) (i : ValueId) :
    Matched L ctx id (spliceInst (L.point pt) (L.rename i)) (spliceInst pt i) := by
  refine .change fun g g' like t done => ?_
  obtain ⟨k, read, upd⟩ := bind_eq_ok.1 done
  rw [kind_eq_ok] at read
  cases k with
  | block d =>
    obtain ⟨data', found', rfl⟩ := L.block like read
    simp only at upd
    split at upd
    next lt =>
      have renamed : ({ data'.rename L.rename with
          insts := (data'.rename L.rename).insts.insertIdx pt.index (L.rename i) } : Block) =
            Block.rename L.rename { data' with insts := data'.insts.insertIdx pt.index i } := by
        simp [Block.rename, map_insertIdx]
      rw [show (L.point pt).index = pt.index from rfl, renamed] at upd
      obtain ⟨after', changed', like'⟩ := L.setBlock like _ _ _ _ found' upd
      refine ⟨after', bind_eq_ok.2 ⟨_, kind_eq_ok.2 found', ?_⟩, like'⟩
      rw [Block.length_rename] at lt
      exact (if_pos lt).trans changed'
    next => cases upd
  | _ => cases upd

private theorem addAt_matched {next : ValueId → Builder α} {next' : ValueId → Builder β} (built : k.Built lim) (ty : Ty)
    (matched : ∀ v, Matched L ctx f (next (L.rename v)) (next' v)) :
    Matched L ctx f (do
        let v ← addValue (k.rename L.rename) ty lim
        let location := (← get).context?
        change (·.modify v fun d => { d with location })
        next v)
      (do
        let v ← addValue k ty lim
        let location := (← get).context?
        change (·.modify v fun d => { d with location })
        next' v) := by
  intro m m' alike res t ran
  obtain ⟨graph, placed, tl⟩ := change_bind_ok.1 (get_bind_ok.1 (addValue_bind_ok.1 ran))
  have place : m.context? = m'.context? := by rw [Module.context?, alike.places, Module.context?, alike.places']
  obtain ⟨graph', placed', like⟩ := L.addAt alike.graph k ty lim m.context? graph built placed
  rw [(L.add alike.graph k ty lim built).1] at tl
  obtain ⟨result', after', rest', eq, path⟩ :=
    matched _ { m with graph } { m' with graph := graph' } { alike with graph := like } res t tl
  refine ⟨result', after', addValue_bind_ok.2 (get_bind_ok.2 (change_bind_ok.2 ⟨graph', ?_, rest'⟩)), eq, path⟩
  rw [place] at placed'
  exact placed'

private theorem insertInst_matched (op : Opcode) (ty : Ty) (operands : List ValueId) (attr : Attr) :
    Matched L ctx L.rename (insertInst op ty (operands.map L.rename) attr) (insertInst op ty operands attr) := by
  refine .get fun m m' alike => ?_
  rw [alike.insertPoint]
  cases m'.insertPoint with
  | none => exact .fault
  | some pt =>
    refine (checkPoint_matched pt op).bind fun _ => ?_
    rw [length_map]
    have built : ∀ lim, (Kind.inst ⟨op, pt.block, attr⟩).Built lim := fun _ => trivial
    refine addAt_matched (built _) ty fun i => ?_
    refine (Matched.forM (addOperand_matched i) operands).bind fun _ => ?_
    refine (spliceInst_matched pt i).bind fun _ => ?_
    refine (Matched.modified fun m m' alike => ?_).bind fun _ => .pure i
    exact { alike with insertPoint := rfl }

private theorem withInsertPoint_matched {x : Builder α} {y : Builder β} (pt : InsertPoint)
    (matched : Matched L ctx f x y) :
    Matched L ctx f (withInsertPoint (L.point pt) x) (withInsertPoint pt y) := by
  refine .get fun m m' alike => ?_
  refine (Matched.modified fun _ _ other => ?_).bind fun _ => matched.bind fun val => ?_
  · exact { other with insertPoint := rfl }
  · refine (Matched.modified fun _ _ other => ?_).bind fun _ => .pure val
    exact { other with insertPoint := alike.insertPoint }

private theorem movePast_matched (b : ValueId) (pos : Nat) :
    Matched L ctx id (movePast (L.rename b) pos) (movePast b pos) := by
  refine .get fun m m' alike => ?_
  rw [alike.insertPoint]
  cases m'.insertPoint with
  | none => exact .pure ()
  | some point =>
    have eq : (L.point point).block = L.rename b ∧ pos ≤ (L.point point).index ↔
        point.block = b ∧ pos ≤ point.index := by
      rw [Likeness.point, L.injective.eq_iff]
    simp only [Option.map_some, eq]
    split
    next =>
      have moved : Matched L ctx L.point (StateT.lift (L.point point).next) (StateT.lift point.next) := by
        intro m m' alike res t ran
        obtain ⟨next, rfl⟩ := lift_ok.1 ran
        unfold InsertPoint.next at next
        split at next
        next bound =>
          cases next
          refine ⟨{ point with index := point.index + 1 }, m', lift_ok.2 ⟨?_, rfl⟩, rfl, alike⟩
          exact if_pos bound
        next => cases next
      refine moved.bind fun next => .modified fun _ _ alike => ?_
      exact { alike with insertPoint := rfl }
    next => exact .pure ()

theorem alloca_matched (ty : Ty) (n : Option String) :
    Matched L ctx L.rename (alloca ty n) (alloca ty n) := by
  refine Matched.ensure.bind fun _ => .get fun m m' alike => ?_
  rw [alike.current]
  cases m'.current with
  | none => exact .fault
  | some st =>
    refine (ask_terminator?_matched st.entry).bind fun last => (ask_block_matched st.entry).bind fun d => ?_
    rw [Option.isSome_map, Block.length_rename]
    refine (withInsertPoint_matched ⟨st.entry, _⟩ (insertInst_matched .alloca _ [] _)).bind fun slot => ?_
    exact (movePast_matched st.entry _).bind fun _ => .pure slot

private theorem entryBlock_matched (fn : ValueId) : Matched L ctx (Option.map L.rename)
    (ask (·.entryBlock (L.rename fn))) (ask (·.entryBlock fn)) := by
  refine .ask fun g g' like entry hit => ?_
  have ok := L.consistent like
  obtain ⟨d, old, _⟩ := bind_eq_ok.1 hit
  have into := lt_of_value old
  rw [Graph.entryBlock, ok.1.operand into, L.operands like, getElem?_map] at hit
  refine ⟨_, ok.2.operand ((L.inside like).1 into) 0, ?_⟩
  cases hit
  cases (g'.operandsOf fn)[0]? <;> rfl

/-- Blocks are created alike in modules that are alike. -/
theorem createBlock_matched (fn : ValueId) (n : Option String) :
    Matched L ctx L.rename (createBlock (L.rename fn) n) (createBlock fn n) := by
  have built : (Kind.block ⟨n, [], [], [], fn⟩).Built none := trivial
  refine (addValue_matched built .label).bind fun b => ?_
  refine (addOperand_matched fn b).bind fun _ => ?_
  have turned : Matched L ctx id (turnTo (L.rename fn) (L.rename b)) (turnTo fn b) := by
    refine .get fun m m' alike => ?_
    have eq : m.current.any (·.function = L.rename fn) = m'.current.any (·.function = fn) := by
      rw [alike.current]
      cases m'.current with
      | none => rfl
      | some st =>
        simp only [Option.map_some, Option.any_some, Likeness.state, L.injective.eq_iff]
    rw [eq]
    split
    next => exact .pure ()
    next =>
      refine (entryBlock_matched fn).bind fun entry => .modified fun _ _ alike => ?_
      refine { alike with current := ?_ }
      rw [Option.map_some, Likeness.state]
      cases entry <;> rfl
  exact turned.bind fun _ => .pure b

theorem setInsertPoint_matched (b : ValueId) :
    Matched L ctx id (setInsertPoint (L.rename b)) (setInsertPoint b) := by
  refine (ask_block_matched b).bind fun d => (ask_kind_matched b).bind fun k => ?_
  rw [Kind.isBlock_rename, Block.length_rename]
  refine Matched.ensure.bind fun _ => .modified fun _ _ alike => ?_
  exact { alike with insertPoint := rfl }

theorem load_matched (ptr : ValueId) : Matched L ctx L.rename (load (L.rename ptr)) (load ptr) := by
  refine (ask_ty_matched ptr).bind fun ty => ?_
  dsimp only [id_eq]
  cases ty.pointee? with
  | none => exact .fault
  | some pointee => exact insertInst_matched .load pointee [ptr] .none

theorem store_matched (val ptr : ValueId) :
    Matched L ctx L.rename (store (L.rename val) (L.rename ptr)) (store val ptr) := by
  refine (ask_ty_matched ptr).bind fun ty => Matched.ensure.bind fun _ => ?_
  exact insertInst_matched .store .void [val, ptr] .none

theorem valueOf_matched (val : ValueId) : Matched L ctx L.rename (valueOf (L.rename val)) (valueOf val) := by
  refine (ask_kind_matched val).bind fun k => ?_
  rw [Kind.isAddress_rename]
  split
  next => exact load_matched val
  next => exact .pure val

private theorem cast_matched (op : Opcode) (val : ValueId) (ty : Ty) :
    Matched L ctx L.rename (cast op (L.rename val) ty) (cast op val ty) :=
  Matched.ensure.bind fun _ => insertInst_matched op ty [val] .none

private theorem convert_matched (val : ValueId) (ty : Ty) :
    Matched L ctx L.rename (convert (L.rename val) ty) (convert val ty) := by
  refine (ask_ty_matched val).bind fun source => ?_
  dsimp only [id_eq]
  split
  next =>
    split
    next => exact cast_matched _ val _
    next =>
      split
      next => exact cast_matched _ val _
      next => exact .pure val
  next => exact .pure val

theorem assign_matched (slot source : ValueId) :
    Matched L ctx L.rename (assign (L.rename slot) (L.rename source)) (assign slot source) := by
  refine (valueOf_matched source).bind fun val => (ask_ty_matched slot).bind fun ty => ?_
  dsimp only [id_eq]
  cases ty.pointee? with
  | none => exact .fault
  | some pointee =>
    refine (convert_matched val pointee).bind fun val => ?_
    exact (store_matched val slot).bind fun _ => .pure val

private theorem unify_matched (lhs rhs : ValueId) :
    Matched L ctx (fun hit => (L.rename hit.1, L.rename hit.2.1, hit.2.2))
      (unify (L.rename lhs) (L.rename rhs)) (unify lhs rhs) := by
  refine (valueOf_matched lhs).bind fun lhs => (valueOf_matched rhs).bind fun rhs => ?_
  refine (ask_ty_matched lhs).bind fun lhsTy => (ask_ty_matched rhs).bind fun rhsTy => ?_
  refine Matched.ensure.bind fun _ => ?_
  refine (convert_matched lhs _).bind fun lhs => (convert_matched rhs _).bind fun rhs => ?_
  exact .pure (lhs, rhs, lhsTy.common rhsTy)

theorem binary_matched (op : Opcode) (lhs rhs : ValueId) :
    Matched L ctx L.rename (binary op (L.rename lhs) (L.rename rhs)) (binary op lhs rhs) := by
  refine Matched.ensure.bind fun _ => (unify_matched lhs rhs).bind fun hit => ?_
  exact insertInst_matched op hit.2.2 [hit.1, hit.2.1] .none

theorem icmp_matched (pred : Predicate) (lhs rhs : ValueId) :
    Matched L ctx L.rename (icmp pred (L.rename lhs) (L.rename rhs)) (icmp pred lhs rhs) := by
  refine (unify_matched lhs rhs).bind fun hit => ?_
  exact insertInst_matched .icmp .bool [hit.1, hit.2.1] (.icmp pred)

theorem call_matched (callee : ValueId) (args : List ValueId) :
    Matched L ctx L.rename (call (L.rename callee) (args.map L.rename)) (call callee args) := by
  refine (ask_ty_matched callee).bind fun ty => Matched.ensure.bind fun _ => ?_
  rw [length_map]
  refine Matched.ensure.bind fun _ => ?_
  have passed : Matched L ctx (List.map L.rename)
      (((args.map L.rename).zip ty.paramTypes).mapM fun item => do convert (← valueOf item.1) item.2)
      ((args.zip ty.paramTypes).mapM fun item => do convert (← valueOf item.1) item.2) := by
    rw [zip_map_left]
    refine .mapM (fun item => ?_) _
    exact (valueOf_matched item.1).bind fun val => convert_matched val item.2
  refine passed.bind fun args => ?_
  exact insertInst_matched .call _ (callee :: args) .none

private theorem addEdge_matched (dest : ValueId) : Matched L ctx id (addEdge (L.rename dest)) (addEdge dest) := by
  refine .get fun m m' alike => ?_
  rw [Module.insertBlock?, alike.insertPoint, Module.insertBlock?]
  cases m'.insertPoint with
  | none => exact .pure ()
  | some pt => exact addOperand_matched dest pt.block

theorem jump_matched (dest : ValueId) : Matched L ctx L.rename (jump (L.rename dest)) (jump dest) := by
  refine (ask_kind_matched dest).bind fun k => ?_
  rw [Kind.isBlock_rename]
  refine Matched.ensure.bind fun _ => (insertInst_matched .jmp .void [dest] .none).bind fun i => ?_
  exact (addEdge_matched dest).bind fun _ => .pure i

theorem branch_matched (cond thenBlock elseBlock : ValueId) :
    Matched L ctx L.rename (branch (L.rename cond) (L.rename thenBlock) (L.rename elseBlock))
      (branch cond thenBlock elseBlock) := by
  refine (ask_ty_matched cond).bind fun ty => Matched.ensure.bind fun _ => ?_
  refine (insertInst_matched .br .void [cond, thenBlock, elseBlock] .none).bind fun i => ?_
  exact (addEdge_matched thenBlock).bind fun _ => (addEdge_matched elseBlock).bind fun _ => .pure i

theorem ret_matched (val : Option ValueId) : Matched L ctx L.rename (ret (val.map L.rename)) (ret val) := by
  rw [ret, Option.toList_map]
  exact insertInst_matched .ret .void val.toList .none

theorem moveBlockToEnd_matched {fn : ValueId} (movable : L.movable fn) (b : ValueId) :
    Matched L ctx id (moveBlockToEnd (L.rename fn) (L.rename b)) (moveBlockToEnd fn b) := by
  refine .change fun g g' like t done => ?_
  have ok := L.consistent like
  obtain ⟨count, counted, done⟩ := bind_eq_ok.1 done
  obtain ⟨d, old, isCount⟩ := map_eq_ok.1 counted
  have into := lt_of_value old
  have inside' := (L.inside like).1 into
  obtain ⟨data', known'⟩ := value_of_lt inside'
  have length : d.operands.length = data'.operands.length := by
    have eq := congrArg List.length (L.operands like fn)
    rwa [length_map, Graph.operandsOf, Graph.operandsOf, length_map, length_map,
      slots_of_value old, slots_of_value known'] at eq
  rw [← isCount, length] at done
  obtain ⟨after', moved, like'⟩ := L.moveBlock like movable _ _ _ done
  exact ⟨after', bind_eq_ok.2 ⟨_, map_eq_ok.2 ⟨data', known', rfl⟩, moved⟩, like'⟩

theorem constInt_matched (val : Int64) (ty : Ty) :
    Matched L ctx L.rename (constInt val ty) (constInt val ty) :=
  addValue_matched (show (Kind.constInt val).Built (some 0) from rfl) ty

theorem constStr_matched (val : String) : Matched L ctx L.rename (constStr val) (constStr val) :=
  addValue_matched (show (Kind.constStr val).Built (some 0) from rfl) _

end Operations
end Builder
end Midend
