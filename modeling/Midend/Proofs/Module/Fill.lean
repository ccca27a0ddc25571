import Midend.Proofs.Module.Progress

/-! The operations of the builder that fill an open block give their results, if what they are given has the
types that they ask for. -/
namespace Midend
open List Graph

namespace Graph
variable {g t : Graph} {v entry : ValueId} {P : Ty → Prop}

structure Loaded (P : Ty → Prop) (g : Graph) (v : ValueId) : Prop where
  plain : g.Plain v
  notAddress : ∀ kind, g.kind? v = some kind → kind.isAddress = false
  ty : ∃ ty, g.ty? v = some ty ∧ P ty

structure Holding (P : Ty → Prop) (g : Graph) (v : ValueId) : Prop where
  plain : g.Plain v
  ty : ∃ kind ty, g.kind? v = some kind ∧ g.ty? v = some ty ∧
    if kind.isAddress then ∃ pointee, ty.pointee? = some pointee ∧ P pointee else P ty

theorem Plain.kind? (plain : g.Plain v) : ∃ k, g.kind? v = some k ∧ k.isBlock = false := by
  obtain ⟨k, found⟩ := exists_kind? plain.inside
  have notBlock := plain.notBlock
  rw [isBlock, found] at notBlock
  exact ⟨k, found, notBlock⟩

theorem Grows.kind?_plain (grows : g.Grows entry t) (plain : g.Plain v) : t.kind? v = g.kind? v := by
  obtain ⟨k, found, notBlock⟩ := plain.kind?
  rw [found, grows.kind? v k found notBlock]

theorem Loaded.holding (loaded : Loaded P g v) : Holding P g v := by
  obtain ⟨ty, isTy, h⟩ := loaded.ty
  obtain ⟨k, found, _⟩ := loaded.plain.kind?
  refine ⟨loaded.plain, k, ty, found, isTy, ?_⟩
  rw [loaded.notAddress k found, if_neg Bool.false_ne_true]
  exact h

theorem Typed.holding (typed : g.Typed) (plain : g.Plain v) : Holding (fun _ => True) g v := by
  obtain ⟨k, found, _⟩ := plain.kind?
  obtain ⟨ty, isTy⟩ := exists_ty? plain.inside
  refine ⟨plain, k, ty, found, isTy, ?_⟩
  split
  next isAddress =>
    obtain ⟨pointee, isPointer⟩ := typed.pointer found isAddress
    cases isTy.symm.trans isPointer
    exact ⟨pointee, rfl, trivial⟩
  next => trivial

theorem Holding.of_address {k : Kind} {pointee : Ty} (plain : g.Plain v) (found : g.kind? v = some k)
    (isAddress : k.isAddress) (isTy : g.ty? v = some (.pointer pointee)) (h : P pointee) : Holding P g v := by
  refine ⟨plain, k, .pointer pointee, found, isTy, ?_⟩
  rw [if_pos isAddress]
  exact ⟨pointee, rfl, h⟩

theorem Grows.loaded (grows : g.Grows entry t) (loaded : Loaded P g v) : Loaded P t v := by
  obtain ⟨ty, isTy, h⟩ := loaded.ty
  refine ⟨grows.plain loaded.plain, ?_, ty, grows.ty? v ty isTy, h⟩
  rw [grows.kind?_plain loaded.plain]
  exact loaded.notAddress

theorem Grows.holding (grows : g.Grows entry t) (holding : Holding P g v) : Holding P t v := by
  obtain ⟨k, ty, found, isTy, h⟩ := holding.ty
  exact ⟨grows.plain holding.plain, k, ty, (grows.kind?_plain holding.plain).trans found, grows.ty? v ty isTy, h⟩

end Graph

namespace Site
open Builder
variable {α β : Type} {u : Site} {scopes : ScopeTable ValueId} {state : FunctionState} {m : Module}
  {here value : ValueId} {P : Ty → Prop}
variable {ty pointee : Ty} {number : Int64}

structure Fillable (site : Site) (scopes : ScopeTable ValueId) (state : FunctionState) (m : Module)
    (here : ValueId) : Prop extends site.Building scopes state m here where
  opened : m.graph.lastOf here = none
  typed : m.graph.Typed

theorem Fillable.straight {t : Module} (fillable : u.Fillable scopes state m here)
    (straight : u.Straight scopes state m t here) (typed : t.graph.Typed) :
    u.Fillable scopes state t here :=
  ⟨straight.building, straight.opened fillable.opened, typed⟩

def Adds (site : Site) (scopes : ScopeTable ValueId) (state : FunctionState) (here : ValueId) (action : Builder α)
    (m : Module) (gives : α → Graph → Prop) : Prop :=
  Runs action m fun value after =>
    site.Straight scopes state m after here ∧ after.graph.Typed ∧ gives value after.graph

namespace Adds
variable {gives : α → Graph → Prop} {last : β → Graph → Prop}
variable {action : Builder α} {next : α → Builder β}

theorem pure (fillable : u.Fillable scopes state m here) {value : α} (h : gives value m.graph) :
    u.Adds scopes state here (Pure.pure value) m gives :=
  Runs.pure ⟨Straight.refl fillable.toBuilding, fillable.typed, h⟩

theorem bind (fillable : u.Fillable scopes state m here) (first : u.Adds scopes state here action m gives)
    (second : ∀ value t, u.Fillable scopes state t here → m.graph.Grows u.entry t.graph →
      gives value t.graph → u.Adds scopes state here (next value) t last) :
    u.Adds scopes state here (action >>= next) m last := by
  refine Runs.bind first ?_
  intro value t ⟨straight, typed, h⟩
  refine (second value t (fillable.straight straight typed) straight.advances.grows h).mono ?_
  intro result final _ ⟨straight', typed', holds'⟩
  exact ⟨straight.trans straight', typed', holds'⟩

theorem ask {read : Graph → Except Fault α} {value : α} (found : read m.graph = .ok value)
    (adds : u.Adds scopes state here (next value) m last) :
    u.Adds scopes state here (Builder.ask read >>= next) m last :=
  Runs.ask found adds

theorem ensure {condition : Bool} {f : Fault} {next : Unit → Builder β} (met : condition = true)
    (adds : u.Adds scopes state here (next ()) m last) :
    u.Adds scopes state here (Builder.ensure condition f >>= next) m last :=
  Runs.ensure met adds

theorem mono {gives' : α → Graph → Prop} (adds : u.Adds scopes state here action m gives)
    (better : ∀ value g, gives value g → gives' value g) : u.Adds scopes state here action m gives' :=
  Runs.mono adds fun value t _ ⟨straight, typed, h⟩ => ⟨straight, typed, better value t.graph h⟩

end Adds

section
variable (fillable : u.Fillable scopes state m here)
include fillable

theorem Fillable.insertInst {op : Opcode} {operands : List ValueId}
    {attr : Attr} (inner : op.isTerminator = false) (notSlot : op ≠ .alloca) (plain : ∀ v ∈ operands, m.graph.Plain v) :
    u.Adds scopes state here (Builder.insertInst op ty operands attr) m fun v g => g.Loaded (· = ty) v := by
  obtain ⟨d, isBlock⟩ := fillable.skeleton.block_of_mem fillable.member
  have code := code_of_kind? isBlock
  refine (insertInst_runs fillable.skeleton.consistent fillable.point isBlock (Nat.le_of_eq (by rw [code]))
    (by simp [fillable.opened]) fun v isIn => (plain v isIn).inside).mono ?_
  intro inst t _ put
  obtain ⟨straight, plainInst⟩ := fillable.toBuilding.inserted put inner notSlot plain
  refine ⟨straight, fillable.typed.inserted put fun isSlot => absurd isSlot notSlot, plainInst, ?_, ty, ?_, rfl⟩
  · intro k found
    cases put.kind?_self.symm.trans found
    simpa [Kind.isAddress] using notSlot
  · rw [put.ty?, if_pos rfl]

theorem Fillable.constant {k : Kind} {limit : Option Nat}
    (free : k.values = []) (notAddress : k.isAddress = false) (fits : Graph.Fits ty limit k) :
    u.Adds scopes state here (addValue k ty limit) m fun v g => g.Loaded (· = ty) v := by
  have valid := fillable.skeleton.consistent
  have added := valid.add_added k ty limit
  have done : addValue k ty limit m = .ok _ := addValue_ok.2 ⟨rfl, rfl⟩
  obtain ⟨straight, plain⟩ := fillable.toBuilding.added done free
  refine ⟨_, _, done, straight, fillable.typed.add valid fits, plain, ?_, ty, ?_, rfl⟩
  · intro other found
    cases ((added.kind? _).trans (if_pos rfl)).symm.trans found
    exact notAddress
  · exact (added.ty? _).trans (if_pos rfl)

theorem Fillable.constInt : u.Adds scopes state here (Builder.constInt number ty) m fun v g => g.Loaded (· = ty) v :=
  fillable.constant rfl rfl trivial

theorem Fillable.constStr {text : String} :
    u.Adds scopes state here (Builder.constStr text) m fun v g => g.Plain v := by
  have adds : u.Adds scopes state here (Builder.constStr text) m fun v g => g.Loaded (· = Ty.str.constant) v :=
    fillable.constant rfl rfl trivial
  exact adds.mono fun _ _ loaded => loaded.plain

theorem Fillable.load (plain : m.graph.Plain value)
    (isTy : m.graph.ty? value = some ty) (points : ty.pointee? = some pointee) :
    u.Adds scopes state here (Builder.load value) m fun v g => g.Loaded (· = pointee) v := by
  apply Adds.ask (ty_eq_ok.2 isTy)
  rw [points]
  exact fillable.insertInst rfl (by decide) (by simpa using plain)

theorem Fillable.store {ptr : ValueId} (plain : m.graph.Plain value)
    (plainPtr : m.graph.Plain ptr) (isTy : m.graph.ty? ptr = some ty) (isPointer : ty.isPointer) :
    u.Adds scopes state here (Builder.store value ptr) m fun _ _ => True := by
  apply Adds.ask (ty_eq_ok.2 isTy)
  apply Adds.ensure isPointer
  exact (fillable.insertInst rfl (by decide) (by simp [plain, plainPtr])).mono fun _ _ _ => trivial

theorem Fillable.valueOf (holding : m.graph.Holding P value) :
    u.Adds scopes state here (Builder.valueOf value) m fun v g => g.Loaded P v := by
  obtain ⟨k, ty, found, isTy, h⟩ := holding.ty
  apply Adds.ask (kind_eq_ok.2 found)
  split
  next isAddress =>
    rw [if_pos isAddress] at h
    obtain ⟨pointee, points, h⟩ := h
    refine Adds.mono (fillable.load holding.plain isTy points) ?_
    intro v g loaded
    obtain ⟨ty', isTy', eq⟩ := loaded.ty
    exact ⟨loaded.plain, loaded.notAddress, ty', isTy', eq ▸ h⟩
  next notAddress =>
    rw [if_neg notAddress] at h
    refine .pure fillable ⟨holding.plain, ?_, ty, isTy, h⟩
    intro other found'
    cases found.symm.trans found'
    simpa using notAddress

theorem Fillable.convert (ty : Ty) (plain : m.graph.Plain value) :
    u.Adds scopes state here (Builder.convert value ty) m fun v g => g.Plain v := by
  obtain ⟨source, isTy⟩ := exists_ty? plain.inside
  have inserted : ∀ op : Opcode, op.isCast → u.Adds scopes state here (cast op value ty.unqualified) m
      fun v g => g.Plain v := by
    intro op isCast
    apply Adds.ensure isCast
    refine Adds.mono (fillable.insertInst ?_ ?_ (by simpa using plain)) fun _ _ loaded => loaded.plain
    · cases op <;> first | rfl | cases isCast
    · rintro rfl
      cases isCast
  apply Adds.ask (ty_eq_ok.2 isTy)
  split
  · split
    · refine inserted _ ?_
      split <;> rfl
    · split
      · exact inserted .trunc rfl
      · exact .pure fillable plain
  · exact .pure fillable plain

theorem Fillable.assign {slot : ValueId}
    (plainSlot : m.graph.Plain slot) (isSlot : m.graph.ty? slot = some (.pointer pointee))
    (plain : m.graph.Plain value) : u.Adds scopes state here (Builder.assign slot value) m fun v g => g.Plain v := by
  refine (fillable.valueOf (fillable.typed.holding plain)).bind fillable ?_
  intro loaded m1 fillable1 grows1 isLoaded
  apply Adds.ask (ty_eq_ok.2 (grows1.ty? _ _ isSlot))
  refine (fillable1.convert pointee isLoaded.plain).bind fillable1 ?_
  intro converted m2 fillable2 grows2 plainConverted
  have grows := grows1.trans grows2
  refine (fillable2.store plainConverted (grows.plain plainSlot) (grows.ty? _ _ isSlot) rfl).bind fillable2 ?_
  intro _ m3 fillable3 grows3 _
  exact .pure fillable3 (grows3.plain plainConverted)

end

section Arithmetic
variable {lhs rhs : ValueId}

theorem Fillable.unify (fillable : u.Fillable scopes state m here)
    (left : m.graph.Holding (·.isInteger) lhs) (right : m.graph.Holding (·.isInteger) rhs) :
    u.Adds scopes state here (Builder.unify lhs rhs) m fun found g => g.Plain found.1 ∧ g.Plain found.2.1 := by
  refine (fillable.valueOf left).bind fillable ?_
  intro l m1 fillable1 grows1 loadedLeft
  refine (fillable1.valueOf (grows1.holding right)).bind fillable1 ?_
  intro r m2 fillable2 grows2 loadedRight
  obtain ⟨leftTy, isLeft, leftInteger⟩ := (grows2.loaded loadedLeft).ty
  obtain ⟨rightTy, isRight, rightInteger⟩ := loadedRight.ty
  apply Adds.ask (ty_eq_ok.2 isLeft)
  apply Adds.ask (ty_eq_ok.2 isRight)
  apply Adds.ensure (by rw [leftInteger, rightInteger]; rfl)
  refine (fillable2.convert (leftTy.common rightTy) (grows2.loaded loadedLeft).plain).bind fillable2 ?_
  intro l' m3 fillable3 grows3 plainLeft
  refine (fillable3.convert (leftTy.common rightTy) (grows3.plain loadedRight.plain)).bind fillable3 ?_
  intro r' m4 fillable4 grows4 plainRight
  exact .pure fillable4 ⟨grows4.plain plainLeft, plainRight⟩

theorem Fillable.binary (fillable : u.Fillable scopes state m here) {op : Opcode} (isBinary : op.isBinary)
    (left : m.graph.Holding (·.isInteger) lhs) (right : m.graph.Holding (·.isInteger) rhs) :
    u.Adds scopes state here (Builder.binary op lhs rhs) m fun v g => g.Plain v := by
  apply Adds.ensure isBinary
  refine (fillable.unify left right).bind fillable ?_
  intro found m1 fillable1 _ ⟨plainLeft, plainRight⟩
  refine Adds.mono (fillable1.insertInst ?_ ?_ (by simp [plainLeft, plainRight])) fun _ _ loaded => loaded.plain
  · cases op <;> first | rfl | cases isBinary
  · rintro rfl
    cases isBinary

theorem Fillable.icmp (fillable : u.Fillable scopes state m here) {pred : Predicate}
    (left : m.graph.Holding (·.isInteger) lhs) (right : m.graph.Holding (·.isInteger) rhs) :
    u.Adds scopes state here (Builder.icmp pred lhs rhs) m fun v g => g.Loaded (· = .bool) v := by
  refine (fillable.unify left right).bind fillable ?_
  intro found m1 fillable1 _ ⟨plainLeft, plainRight⟩
  exact fillable1.insertInst rfl (by decide) (by simp [plainLeft, plainRight])

end Arithmetic

theorem isInteger_unqualified (isInteger : ty.isInteger) : ty.unqualified.isInteger := by
  simpa [Ty.isInteger] using isInteger

section
variable (fillable : u.Fillable scopes state m here)
include fillable

private theorem Fillable.constLike (isInteger : ty.isInteger) :
    u.Adds scopes state here (Builder.constInt number ty.unqualified) m fun v g => g.Holding (·.isInteger) v := by
  refine fillable.constInt.mono ?_
  intro v g loaded
  obtain ⟨ty', isTy, eq⟩ := loaded.ty
  have sorted : g.Loaded (·.isInteger) v :=
    ⟨loaded.plain, loaded.notAddress, ty', isTy, by rw [eq]; exact isInteger_unqualified isInteger⟩
  exact sorted.holding

theorem Fillable.toBool (loaded : m.graph.Loaded (·.isInteger) value) :
    u.Adds scopes state here (Lower.toBool value) m fun v g => g.Loaded (·.isBool) v := by
  obtain ⟨ty, isTy, isInteger⟩ := loaded.ty
  apply Adds.ask (ty_eq_ok.2 isTy)
  split
  next isBool => exact .pure fillable ⟨loaded.plain, loaded.notAddress, ty, isTy, isBool⟩
  next =>
    refine (fillable.constLike isInteger).bind fillable ?_
    intro zero m1 fillable1 grows1 holdsZero
    refine (fillable1.icmp (grows1.loaded loaded).holding holdsZero).mono ?_
    intro v g compared
    obtain ⟨ty', isTy', eq⟩ := compared.ty
    exact ⟨compared.plain, compared.notAddress, ty', isTy', by rw [eq]; rfl⟩

theorem Fillable.unary {op : UnaryOp} (loaded : m.graph.Loaded (·.isInteger) value) :
    u.Adds scopes state here (Lower.unary op value) m fun v g => g.Plain v := by
  obtain ⟨ty, isTy, isInteger⟩ := loaded.ty
  apply Adds.ask (ty_eq_ok.2 isTy)
  cases op with
  | plus => exact .pure fillable loaded.plain
  | minus =>
    refine (fillable.constLike isInteger).bind fillable ?_
    intro zero m1 fillable1 grows1 holdsZero
    exact fillable1.binary rfl holdsZero (grows1.loaded loaded).holding
  | logicalNot =>
    refine (fillable.constLike isInteger).bind fillable ?_
    intro zero m1 fillable1 grows1 holdsZero
    exact (fillable1.icmp (grows1.loaded loaded).holding holdsZero).mono fun _ _ compared => compared.plain
  | bitNot =>
    refine (fillable.constLike isInteger).bind fillable ?_
    intro ones m1 fillable1 grows1 holdsOnes
    exact fillable1.binary rfl (grows1.loaded loaded).holding holdsOnes

theorem Fillable.arguments {args : List (ValueId × Ty)} (plain : ∀ arg ∈ args, m.graph.Plain arg.1) :
    u.Adds scopes state here (args.mapM fun arg => do Builder.convert (← Builder.valueOf arg.1) arg.2) m
      fun values g => ∀ v ∈ values, g.Plain v := by
  induction args generalizing m with
  | nil => exact .pure fillable (by simp)
  | cons arg rest ih =>
    rw [mapM_cons]
    have first : u.Adds scopes state here (do Builder.convert (← Builder.valueOf arg.1) arg.2) m
        fun v g => g.Plain v := by
      refine (fillable.valueOf (fillable.typed.holding (plain arg mem_cons_self))).bind fillable ?_
      intro loaded m1 fillable1 _ isLoaded
      exact fillable1.convert arg.2 isLoaded.plain
    refine first.bind fillable ?_
    intro value m1 fillable1 grows1 plainValue
    refine (ih fillable1 fun other listed => grows1.plain (plain other (mem_cons_of_mem _ listed))).bind fillable1 ?_
    intro values m2 fillable2 grows2 plainValues
    refine .pure fillable2 ?_
    intro v listed
    rcases mem_cons.1 listed with rfl | listed
    · exact grows2.plain plainValue
    · exact plainValues v listed

theorem Fillable.call {callee : ValueId} {args : List ValueId}
    (plainCallee : m.graph.Plain callee) (isTy : m.graph.ty? callee = some ty) (isFunc : ty.isFunc)
    (count : ty.paramTypes.length = args.length) (plain : ∀ arg ∈ args, m.graph.Plain arg) :
    u.Adds scopes state here (Builder.call callee args) m fun v g => g.Plain v := by
  apply Adds.ask (ty_eq_ok.2 isTy)
  apply Adds.ensure isFunc
  apply Adds.ensure (by simpa using count)
  refine (fillable.arguments fun arg listed => plain arg.1 (of_mem_zip listed).1).bind fillable ?_
  intro values m1 fillable1 grows1 plainValues
  refine Adds.mono (fillable1.insertInst rfl (by decide) ?_) fun _ _ loaded => loaded.plain
  intro v listed
  rcases mem_cons.1 listed with rfl | listed
  · exact grows1.plain plainCallee
  · exact plainValues v listed

theorem Fillable.alloca {n : Option String}
    (notVoid : ty.isVoid = false) (room : here = u.entry → (m.graph.code here).length + 1 < InsertPoint.indexBound) :
    u.Adds scopes state here (Builder.alloca ty n) m fun v g =>
      g.Plain v ∧ g.ty? v = some (.pointer ty.unqualified) := by
  obtain ⟨d, isBlock⟩ := fillable.skeleton.block_of_mem fillable.skeleton.entry_mem
  rw [← fillable.entry] at isBlock
  refine (alloca_runs fillable.skeleton.consistent fillable.current notVoid isBlock fillable.point
    (by rw [fillable.entry]; exact room)).mono ?_
  intro slot t _ allocated
  rw [fillable.entry] at allocated
  obtain ⟨straight, plain⟩ := fillable.toBuilding.allocated allocated
  have put := allocated.inserted
  have typed := Graph.Typed.inserted put fillable.typed fun _ => ⟨_, rfl⟩
  exact ⟨straight, typed, plain, (put.ty? slot).trans (if_pos rfl)⟩

end

end Site
end Midend
