import Midend.Proofs.Lower.Scheme
import Midend.Proofs.Lower.Steps
import Midend.Proofs.Module.Fill

/-! Steps of lowering do not fault, if addresses have pointer types and the functions of the module have the
types with which they are defined. -/
namespace Midend
open Builder Graph
variable {defs : List FuncDef}

def CallsFit (defs : List FuncDef) (calls : List (String × Nat)) : Prop :=
  ∀ call ∈ calls, ∀ f ∈ defs, f.name = call.1 → f.params.length = call.2

structure Lower.Sensible (defs : List FuncDef) (decls : List Decl) (exprs : List Expr) : Prop where
  notVoid : ∀ d ∈ decls, d.ty.isVoid = false
  fit : ∀ e ∈ exprs, CallsFit defs e.calls

structure Mode where
  safe : Prop
  defs : List FuncDef

def Mode.loose : Mode := ⟨False, []⟩

namespace Site
variable {u : Site} {scs scopes' : ScopeTable ValueId} {st : FunctionState} {defs : List FuncDef}
  {s t : Lowering} {m : Module} {here there : ValueId}
variable {last : Module}

private theorem Building.func_unlimited (building : u.Building scs st m here) (typed : m.graph.Typed) :
    m.graph.limit? u.func = some none := by
  obtain ⟨d, isFn⟩ := building.skeleton.laid.function
  exact typed.unlimited isFn (.inr rfl)

theorem Building.unlimited (building : u.Building scs st m here) (typed : m.graph.Typed) {b : ValueId}
    (into : b ∈ m.graph.layout u.func) :
    (∃ d, m.graph.kind? b = some (.block d)) ∧ m.graph.limit? b = some none := by
  obtain ⟨d, hb⟩ := building.skeleton.block_of_mem into
  exact ⟨⟨d, hb⟩, typed.unlimited hb (.inl rfl)⟩

private theorem typed_closed {i : ValueId} {op : Opcode} {ops dests : List ValueId} {pt : InsertPoint}
    {d : Block} (typed : m.graph.Typed) (notSlot : op ≠ .alloca)
    (done : Builder.Closed m last i op ops dests pt d) : last.graph.Typed := by
  obtain ⟨mid, put, linked, _⟩ := done.inserted
  exact (Graph.Typed.inserted put typed fun isSlot => absurd isSlot notSlot).rewired linked

theorem Fillable.jump (fill : u.Fillable scs st m here) {dest : ValueId}
    (into : dest ∈ m.graph.layout u.func) : Builder.Runs (Builder.jump dest) m fun _ last =>
      u.Ended scs st m last here .jmp [dest] ∧ last.graph.Typed := by
  have ok := fill.skeleton.consistent
  obtain ⟨d, hb⟩ := fill.skeleton.block_of_mem fill.member
  obtain ⟨⟨b, isTarget⟩, unlimited⟩ := fill.unlimited fill.typed into
  refine (jump_runs ok fill.point hb (Nat.le_of_eq (by rw [code_of_kind? hb]))
    fill.opened isTarget unlimited).mono ?_
  intro i last acted _
  obtain ⟨_, _, _, closed⟩ := jump_ok ok acted
  exact ⟨fill.toBuilding.jump into acted, typed_closed fill.typed (by decide) closed⟩

/-- A branch on a truth value succeeds. -/
theorem Fillable.branch (fill : u.Fillable scs st m here) {cond thenBlock elseBlock : ValueId}
    (loaded : m.graph.Loaded (·.isBool) cond) (thenInside : thenBlock ∈ m.graph.layout u.func)
    (elseInside : elseBlock ∈ m.graph.layout u.func) :
    Builder.Runs (Builder.branch cond thenBlock elseBlock) m fun _ last =>
      u.Ended scs st m last here .br [thenBlock, elseBlock] ∧ last.graph.Typed := by
  have ok := fill.skeleton.consistent
  obtain ⟨d, hb⟩ := fill.skeleton.block_of_mem fill.member
  obtain ⟨ty, isTy, isBool⟩ := loaded.ty
  refine (branch_runs ok fill.point hb (Nat.le_of_eq (by rw [code_of_kind? hb]))
    fill.opened isTy isBool (fill.unlimited fill.typed thenInside).2
    (fill.unlimited fill.typed elseInside).2).mono ?_
  intro i last acted _
  obtain ⟨_, _, _, closed⟩ := branch_ok ok acted
  exact ⟨fill.toBuilding.branch loaded.plain thenInside elseInside acted,
    typed_closed fill.typed (by decide) closed⟩

def Callees (defs : List FuncDef) (m : Module) : Prop :=
  ∀ callee ∈ m.functions, ∃ f ∈ defs, ∃ args,
    m.graph.kind? callee = some (.function ⟨f.name, args⟩) ∧ m.graph.ty? callee = some f.ty

theorem Callees.grown {entry : ValueId} (callees : Callees defs m) (fs : last.functions = m.functions)
    (grows : m.graph.Grows entry last.graph) : Callees defs last := by
  intro callee mem
  obtain ⟨f, defined, args, isFn, isTy⟩ := callees callee (fs ▸ mem)
  exact ⟨f, defined, args, grows.kind? _ _ isFn rfl, grows.ty? _ _ isTy⟩

structure Sane (site : Site) (state : FunctionState) (defs : List FuncDef) (s : Lowering) (here : ValueId) : Prop where
  typed : s.module.graph.Typed
  apart : here ≠ site.entry
  callees : Callees defs s.module
  returnSlot : ∀ slot ∈ state.returnSlot, ∃ pointee, s.module.graph.ty? slot = some (.pointer pointee)

theorem Sane.reached {pending : List ValueId} (sane : u.Sane st defs s here)
    (building : u.Building scs st s.module here)
    (path : u.Reached scopes' st s here t there pending) (typed : t.module.graph.Typed) :
    u.Sane st defs t there where
  typed := typed
  apart := by
    rintro rfl
    rcases path.advances.fresh with eq | new
    · exact sane.apart eq.symm
    · exact absurd (building.lt_of_mem building.skeleton.entry_mem) (Nat.not_lt_of_le new)
  callees := sane.callees.grown (path.building.functions.trans building.functions.symm) path.advances.grows
  returnSlot slot isSlot := by
    obtain ⟨pointee, isTy⟩ := sane.returnSlot slot isSlot
    exact ⟨pointee, path.advances.grows.ty? _ _ isTy⟩

end Site

namespace Lower
variable {u : Site} {scs : ScopeTable ValueId} {st : FunctionState} {s : Lowering} {here : ValueId}
  {safe : Prop} {broken : Lowering → Prop} {n : Option String} {v dest other : ValueId}

def Purpose.Suits (g : Graph) (v : ValueId) : Purpose → Prop
  | .any => True
  | .loaded => g.Loaded (fun _ => True) v
  | .integer => g.Loaded (·.isInteger) v
  | .truth => g.Loaded (·.isBool) v
  | .number => g.Holding (·.isInteger) v
  | .place | .cell => ∃ pointee, g.ty? v = some (.pointer pointee)
  | .address => ∃ kind pointee, g.kind? v = some kind ∧ kind.isAddress ∧ g.ty? v = some (.pointer pointee)
  | .callee count => ∃ ty, g.ty? v = some ty ∧ ty.isFunc ∧ ty.paramTypes.length = count

theorem Purpose.Suits.grown {g t : Graph} {entry : ValueId} {use : Purpose} (suits : use.Suits g v)
    (plain : g.Plain v) (grows : g.Grows entry t) : use.Suits t v := by
  cases use with
  | any => trivial
  | loaded | integer | truth => exact grows.loaded suits
  | number => exact grows.holding suits
  | place | cell =>
    obtain ⟨pointee, isTy⟩ := suits
    exact ⟨pointee, grows.ty? _ _ isTy⟩
  | address =>
    obtain ⟨k, pointee, hit, isAddress, isTy⟩ := suits
    exact ⟨k, pointee, (grows.kind?_plain plain).trans hit, isAddress, grows.ty? _ _ isTy⟩
  | callee =>
    obtain ⟨ty, isTy, isFunc⟩ := suits
    exact ⟨ty, grows.ty? _ _ isTy, isFunc⟩

theorem isBinary_opcode (op : ArithOp) (lhs rhs : Ty) : (op.opcode lhs rhs).isBinary := by
  cases op <;> simp only [ArithOp.opcode] <;> first | rfl | (split <;> rfl)

theorem createBlock_finishes (building : u.Building scs st s.module here)
    (typed : safe → s.module.graph.Typed) :
    Finishes safe (build (Builder.createBlock u.func n)) s broken fun b t =>
      (u.Reached scs st s here t here [b] ∧
        Builder.BlockAdded s.module.graph t.module.graph b u.func n) ∧
          (safe → t.module.graph.Typed) := by
  refine (Finishes.of_ends (fun isSafe => createBlock_runs building.skeleton.consistent
    (building.func_unlimited (typed isSafe))) (createBlock_ends building)).mono (fun _ bad => bad) ?_
  exact fun b t ⟨made, _⟩ => ⟨made, fun isSafe => (typed isSafe).blockAdded made.2⟩

theorem newBlock_finishes (building : u.Building scs st s.module here) (typed : safe → s.module.graph.Typed) :
    Finishes safe (newBlock n) s broken fun b t => (u.Reached scs st s here t here [b] ∧
        Builder.BlockAdded s.module.graph t.module.graph b u.func n) ∧
          (safe → t.module.graph.Typed) := by
  have current : Finishes safe currentFunction s broken fun f t => f = u.func ∧ t = s := by
    apply Finishes.get
    rw [building.current]
    exact .pure ⟨building.function, rfl⟩
  refine current.bind ?_
  rintro _ _ ⟨rfl, rfl⟩
  exact createBlock_finishes building typed

theorem setInsertPoint_finishes {s0 : Lowering} {mid : ValueId} {later : List ValueId}
    (path : u.Reached scs st s0 here s mid (dest :: later))
    (last : ∃ i, s.module.graph.lastOf mid = some i) :
    Finishes safe (build (Builder.setInsertPoint dest)) s broken fun _ t =>
      u.Reached scs st s0 here t dest later ∧
        t.module.graph.code dest = [] ∧ t.module.graph = s.module.graph := by
  obtain ⟨d, hb⟩ := path.building.skeleton.block_of_mem (path.waiting dest List.mem_cons_self).inside
  exact (Finishes.of_ends (fun _ => setInsertPoint_runs hb) (setInsertPoint_ends path last)).mono
    (fun _ bad => bad) fun _ _ ent => ent.1

section Filled
variable (building : u.Building scs st s.module here) (opened : s.module.graph.lastOf here = none)
  (typed : safe → s.module.graph.Typed)
include building opened typed

theorem jump_finishes (into : dest ∈ s.module.graph.layout u.func) :
    Finishes safe (build (Builder.jump dest)) s broken fun _ t =>
      u.Turned scs st s here t [dest] ∧ (safe → t.module.graph.Typed) :=
  (Finishes.of_ends (fun isSafe => Site.Fillable.jump ⟨building, opened, typed isSafe⟩ into)
    (jump_ends building into)).mono (fun _ bad => bad) fun _ _ ⟨turned, sure⟩ => ⟨turned, fun isSafe => (sure isSafe).2⟩

theorem branch_finishes (plain : s.module.graph.Plain v) (loaded : safe → s.module.graph.Loaded (·.isBool) v)
    (into : dest ∈ s.module.graph.layout u.func) (inside' : other ∈ s.module.graph.layout u.func) :
    Finishes safe (build (Builder.branch v dest other)) s broken fun _ t =>
      u.Turned scs st s here t [dest, other] ∧ (safe → t.module.graph.Typed) :=
  (Finishes.of_ends (fun isSafe => Site.Fillable.branch ⟨building, opened, typed isSafe⟩ (loaded isSafe) into inside')
    (branch_ends building plain into inside')).mono (fun _ bad => bad)
    fun _ _ ⟨turned, sure⟩ => ⟨turned, fun isSafe => (sure isSafe).2⟩

theorem logicBranch_finishes {op : LogicOp} (plain : s.module.graph.Plain v)
    (loaded : safe → s.module.graph.Loaded (·.isBool) v) (into : dest ∈ s.module.graph.layout u.func)
    (inside' : other ∈ s.module.graph.layout u.func) :
    Finishes safe (build (logicBranch op v dest other)) s broken fun _ t =>
      u.Turned scs st s here t [dest, other] ∧ (safe → t.module.graph.Typed) := by
  have runs : safe → Builder.Runs (logicBranch op v dest other) s.module fun _ last => last.graph.Typed := by
    intro isSafe
    have fill : u.Fillable scs st s.module here := ⟨building, opened, typed isSafe⟩
    cases op with
    | and => exact (fill.branch (loaded isSafe) into inside').bind fun _ _ ended => .pure ended.2
    | or => exact (fill.branch (loaded isSafe) inside' into).bind fun _ _ ended => .pure ended.2
  exact .of_ends runs (logicBranch_ends building plain into inside')

theorem jumpUnlessTerminated_finishes (into : dest ∈ s.module.graph.layout u.func) :
    Finishes safe (jumpUnlessTerminated dest) s broken fun _ t =>
      u.Turned scs st s here t [dest] ∧ (safe → t.module.graph.Typed) := by
  obtain ⟨d, hb⟩ := building.skeleton.block_of_mem building.member
  have asked : Finishes safe (build (do StateT.lift (← get).isTerminated)) s broken fun terminated t =>
      terminated = false ∧ t = s := by
    apply Finishes.build
    apply Builder.Runs.get
    refine ⟨_, s.module, lift_ok.2 ⟨?_, rfl⟩, rfl, rfl⟩
    rw [Module.isTerminated, building.point]
    dsimp only
    rw [Graph.Consistent.terminator? hb, opened]
    rfl
  refine asked.bind ?_
  rintro _ _ ⟨rfl, rfl⟩
  refine (jump_finishes building opened typed into).bind ?_
  exact fun _ _ turned => .pure turned

end Filled
end Lower
end Midend
