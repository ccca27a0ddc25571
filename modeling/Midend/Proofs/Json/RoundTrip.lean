import Midend.Proofs.Json.Loose

/-! Programs and their parts can be read from what is written for them. -/
namespace Midend
open List
open Json

section Values
variable {d : Nat} {data : Json} {n : String}

private theorem Json.reads_str (text : String) : Reads d string? (.str text) text := by
  intro other _ loose
  rw [loosens_str loose]
  rfl

private theorem Json.reads_uint32 (n : UInt32) : Reads d uint32? (.int n.toNat) n := by
  intro other _ loose
  have lt := n.toNat_lt
  rw [loosens_int loose, uint32?, intBetween?, if_pos (by omega)]
  simp

private theorem Json.reads_uint8 (n : UInt8) : Reads d uint8? (.int n.toNat) n := by
  intro other _ loose
  have lt := n.toNat_lt
  rw [loosens_int loose, uint8?, intBetween?, if_pos (by omega)]
  simp

private theorem Json.reads_int64 (n : Int64) : Reads d int64? (.int n.toInt) n := by
  intro other _ loose
  have low := n.le_toInt
  have high := n.toInt_lt
  rw [loosens_int loose, int64?, intBetween?, if_pos (by omega)]
  simp

private theorem Json.plainVariant?_variant (notNull : data ≠ .null) : (variant n data).plainVariant? = none := by
  cases data <;> first | exact absurd rfl notNull | rfl

@[simp]
theorem Json.variant?_variant (n : String) (data : Json) : (variant n data).variant? = some (n, some data) :=
  rfl

private theorem Json.depth_variant (n : String) (data : Json) : (variant n data).depth = data.depth + 1 := by
  simp [variant, depth, fieldsDepth]

end Values

theorem Location.reads (l : Location) (d : Nat) : Reads d Location.ofJson? l.toJson l := by
  intro other _ loose
  obtain ⟨written, rfl, isNamed, h⟩ := loosens_record ["filename", "line", "column"] rfl (by decide) loose
  simp only [forall_mem_cons] at h
  obtain ⟨file, line, column, _⟩ := h
  have isFile := file.required (Nat.le_refl _) nofun (reads_str l.file)
  have isLine := line.required (Nat.le_refl _) nofun (reads_uint32 l.line)
  have isColumn := column.required (Nat.le_refl _) nofun (reads_uint32 l.column)
  simp [Location.ofJson?, record, isNamed, isFile, isLine, isColumn]

namespace Ty
attribute [simp] decode

private theorem toJson_ne_null (ty : Ty) : ty.toJson ≠ .null := by
  cases ty <;> nofun

private theorem listToJson_eq (tys : List Ty) : listToJson tys = tys.map toJson := by
  induction tys with
  | nil => rfl
  | cons ty tl ih => rw [listToJson, ih, map_cons]

variable (rules : Json.Rules)

mutual
theorem reads : ∀ (ty : Ty) (fuel : Nat), Reads fuel (decode rules fuel) ty.toJson ty
  | _, 0 => nofun
  | .void, fuel + 1 | .bool, fuel + 1 | .int8, fuel + 1 | .int32, fuel + 1 | .uint8, fuel + 1 | .uint32, fuel + 1
  | .str, fuel + 1 | .label, fuel + 1 => fun other _ loose => by
    rw [loosens_str loose]
    rfl
  | .const inner, fuel + 1 => fun other shallow loose => by
    obtain ⟨data, rfl, within⟩ := loosens_variant (by decide) loose
    rw [depth_variant, Nat.add_lt_add_iff_right] at shallow
    simp [decode, plainVariant?_variant (mt (loosens_null within).1 inner.toJson_ne_null),
      reads inner fuel data shallow within]
  | .pointer pointee, fuel + 1 => fun other shallow loose => by
    obtain ⟨data, rfl, within⟩ := loosens_variant (by decide) loose
    rw [depth_variant, Nat.add_lt_add_iff_right] at shallow
    simp [decode, plainVariant?_variant (mt (loosens_null within).1 pointee.toJson_ne_null),
      reads pointee fuel data shallow within]
  | .func params ret, fuel + 1 => fun other shallow loose => by
    obtain ⟨data, rfl, within⟩ := loosens_variant (by decide) loose
    rw [depth_variant, Nat.add_lt_add_iff_right] at shallow
    obtain ⟨written, rfl, isNamed, h⟩ := loosens_record ["params", "ret"] rfl (by decide) within
    simp only [forall_mem_cons, listToJson_eq] at h
    obtain ⟨heldParams, heldRet, _⟩ := h
    have isParams := heldParams.list (Nat.le_of_lt shallow) fun ty mem => listReads params ty mem fuel
    have isRet := heldRet.required (Nat.le_of_lt shallow) ret.toJson_ne_null (reads ret fuel)
    obtain ⟨elems, isList, isParams⟩ := Option.bind_eq_some_iff.1 isParams
    simp [decode, plainVariant?_variant, Rules.variantRecord, record, isNamed, isList, isParams, isRet]

theorem listReads : ∀ tys : List Ty, ∀ ty ∈ tys, ∀ fuel, Reads fuel (decode rules fuel) ty.toJson ty
  | ty :: tl, other, member, fuel => by
    rcases mem_cons.1 member with same | member
    · exact same ▸ reads ty fuel
    · exact listReads tl other member fuel
end

private theorem reads_all (ty : Ty) (d : Nat) : Reads d (ofJson? rules) ty.toJson ty := fun other _ loose =>
  reads rules ty (other.depth + 1) other (Nat.lt_succ_self _) loose

end Ty

section Nodes
variable (rules : Json.Rules)

theorem BinaryOp.reads (op : BinaryOp) (d : Nat) : Reads d BinaryOp.ofJson? op.toJson op := by
  intro other _ loose
  rw [loosens_str loose]
  exact BinaryOp.ofName?_name op

theorem UnaryOp.reads (op : UnaryOp) (d : Nat) : Reads d UnaryOp.ofJson? op.toJson op := by
  intro other _ loose
  rw [loosens_str loose]
  exact UnaryOp.ofName?_name op

/-- The parts that all expressions have, and the way in which the data of one are written. -/
theorem Note.reads {note : Note} {n : String} {data other : Json} (loose : Loosens (note.toJson (.variant n data)) other)
    (tag : isTag n) :
    ∃ written hit, other = .obj written ∧ hit.depth + 1 < other.depth ∧ Loosens data hit ∧
      ∃ loc ty, named ["kind", "location", "expr_type"] written = some [some (.variant n hit), loc, ty] ∧
        required Location.ofJson? loc = some note.location ∧ required (Ty.ofJson? rules) ty = some note.ty := by
  obtain ⟨written, rfl, isNamed, h⟩ := loosens_record ["kind", "location", "expr_type"] rfl (by decide) loose
  simp only [forall_mem_cons] at h
  obtain ⟨heldKind, heldLocation, heldTy, _⟩ := h
  obtain ⟨k, isKind, below, within⟩ := heldKind.there nofun
  obtain ⟨hit, rfl, inner⟩ := loosens_variant tag within
  rw [depth_variant] at below
  have isLocation := heldLocation.required (Nat.le_refl _) nofun (note.location.reads _)
  have isTy := heldTy.required (Nat.le_refl _) note.ty.toJson_ne_null (note.ty.reads_all rules _)
  rw [map_cons, isKind] at isNamed
  exact ⟨written, hit, rfl, below, inner, _, _, isNamed, isLocation, isTy⟩

namespace Expr
attribute [simp] decode

def Back (fuel : Nat) (e : Expr) : Prop := Reads fuel (decode rules fuel) e.toJson e

theorem toJson_ne_null (e : Expr) : e.toJson ≠ .null := by
  cases e <;> nofun

theorem listToJson_eq (es : List Expr) : listToJson es = es.map toJson := by
  induction es with
  | nil => rfl
  | cons e tl ih => rw [listToJson, ih, map_cons]

variable {fuel : Nat} {left right arg : Expr} {arguments : List Expr}

private theorem reads_int (val : Int64) (note : Note) : Back rules (fuel + 1) (int val note) := by
  intro other shallow loose
  obtain ⟨written, data, rfl, below, within, _, _, isNamed, isLocation, isTy⟩ := Note.reads rules loose (by decide)
  simp [record, isNamed, isLocation, isTy, reads_int64 val data (Nat.lt_succ_self _) within]

private theorem reads_char (val : UInt8) (note : Note) : Back rules (fuel + 1) (char val note) := by
  intro other shallow loose
  obtain ⟨written, data, rfl, below, within, _, _, isNamed, isLocation, isTy⟩ := Note.reads rules loose (by decide)
  simp [record, isNamed, isLocation, isTy, reads_uint8 val data (Nat.lt_succ_self _) within]

private theorem reads_string (val : String) (note : Note) : Back rules (fuel + 1) (string val note) := by
  intro other shallow loose
  obtain ⟨written, data, rfl, below, within, _, _, isNamed, isLocation, isTy⟩ := Note.reads rules loose (by decide)
  simp [record, isNamed, isLocation, isTy, reads_str val data (Nat.lt_succ_self _) within]

private theorem reads_ident (n : String) (note : Note) : Back rules (fuel + 1) (ident n note) := by
  intro other shallow loose
  obtain ⟨written, data, rfl, below, within, _, _, isNamed, isLocation, isTy⟩ := Note.reads rules loose (by decide)
  obtain ⟨fields, rfl, areNamed, h⟩ := loosens_record ["name"] rfl (by decide) within
  simp only [forall_mem_cons] at h
  have isName := h.1.required (Nat.le_refl _) nofun (reads_str n)
  simp [record, Rules.variantRecord, isNamed, isLocation, isTy, areNamed, isName]

private theorem reads_binary (op : BinaryOp) (note : Note) (isLeft : Back rules fuel left) (isRight : Back rules fuel right) :
    Back rules (fuel + 1) (binary op left right note) := by
  intro other shallow loose
  obtain ⟨written, data, rfl, below, within, _, _, isNamed, isLocation, isTy⟩ := Note.reads rules loose (by decide)
  obtain ⟨fields, rfl, areNamed, h⟩ := loosens_record ["op", "left", "right"] rfl (by decide) within
  simp only [forall_mem_cons] at h
  obtain ⟨heldOp, heldLeft, heldRight, _⟩ := h
  have isOp := heldOp.required (Nat.le_refl _) nofun (op.reads _)
  have isLeft := heldLeft.required (d := fuel) (by omega) left.toJson_ne_null isLeft
  have isRight := heldRight.required (d := fuel) (by omega) right.toJson_ne_null isRight
  simp [record, Rules.variantRecord, isNamed, isLocation, isTy, areNamed, isOp, isLeft, isRight]

private theorem reads_unary (op : UnaryOp) (note : Note) (isOperand : Back rules fuel arg) :
    Back rules (fuel + 1) (unary op arg note) := by
  intro other shallow loose
  obtain ⟨written, data, rfl, below, within, _, _, isNamed, isLocation, isTy⟩ := Note.reads rules loose (by decide)
  obtain ⟨fields, rfl, areNamed, h⟩ := loosens_record ["op", "operand"] rfl (by decide) within
  simp only [forall_mem_cons] at h
  obtain ⟨heldOp, heldOperand, _⟩ := h
  have isOp := heldOp.required (Nat.le_refl _) nofun (op.reads _)
  have isOperand := heldOperand.required (d := fuel) (by omega) arg.toJson_ne_null isOperand
  simp [record, Rules.variantRecord, isNamed, isLocation, isTy, areNamed, isOp, isOperand]

private theorem reads_call (function : String) (note : Note) (areArguments : ∀ e ∈ arguments, Back rules fuel e) :
    Back rules (fuel + 1) (call function arguments note) := by
  intro other shallow loose
  obtain ⟨written, data, rfl, below, within, _, _, isNamed, isLocation, isTy⟩ := Note.reads rules loose (by decide)
  obtain ⟨fields, rfl, areNamed, h⟩ := loosens_record ["function", "arguments"] rfl (by decide) within
  simp only [forall_mem_cons, listToJson_eq] at h
  obtain ⟨heldFunction, heldArguments, _⟩ := h
  have isFunction := heldFunction.required (Nat.le_refl _) nofun (reads_str function)
  have isArguments := heldArguments.list (d := fuel) (by omega) areArguments
  obtain ⟨elems, isList, isArguments⟩ := Option.bind_eq_some_iff.1 isArguments
  simp [record, Rules.variantRecord, isNamed, isLocation, isTy, areNamed, isFunction, isList, isArguments]

mutual
theorem reads : ∀ (e : Expr) (fuel : Nat), Back rules fuel e
  | _, 0 => nofun
  | .int val note, _ + 1 => reads_int rules val note
  | .char val note, _ + 1 => reads_char rules val note
  | .string val note, _ + 1 => reads_string rules val note
  | .ident n note, _ + 1 => reads_ident rules n note
  | .binary op left right note, fuel + 1 => reads_binary rules op note (reads left fuel) (reads right fuel)
  | .unary op operand note, fuel + 1 => reads_unary rules op note (reads operand fuel)
  | .call function arguments note, fuel + 1 => reads_call rules function note fun e mem => listReads arguments e mem fuel

theorem listReads : ∀ es : List Expr, ∀ e ∈ es, ∀ fuel, Back rules fuel e
  | e :: tl, other, member, fuel => by
    rcases mem_cons.1 member with same | member
    · exact same ▸ reads e fuel
    · exact listReads tl other member fuel
end

theorem reads_all (e : Expr) (d : Nat) : Reads d (ofJson? rules) e.toJson e := fun other _ loose =>
  reads rules e (other.depth + 1) other (Nat.lt_succ_self _) loose

end Expr

theorem Decl.reads (decl : Decl) (d : Nat) : Reads d (Decl.ofJson? rules) decl.toJson decl := by
  intro other _ loose
  obtain ⟨written, rfl, isNamed, h⟩ :=
    loosens_record ["name", "decl_type", "initializer", "location"] rfl (by decide) loose
  simp only [forall_mem_cons] at h
  obtain ⟨heldName, heldTy, heldInitializer, heldLocation, _⟩ := h
  have isName := heldName.required (Nat.le_refl _) nofun (reads_str decl.name)
  have isTy := heldTy.required (Nat.le_refl _) decl.ty.toJson_ne_null (decl.ty.reads_all rules _)
  have isInitializer := heldInitializer.optional (Nat.le_refl _) Expr.toJson_ne_null fun e _ => e.reads_all rules _
  have isLocation := heldLocation.required (Nat.le_refl _) nofun (decl.location.reads _)
  simp [Decl.ofJson?, record, isNamed, isName, isTy, isInitializer, isLocation]

namespace Stmt
variable {loc : Location} {other : Json}
attribute [simp] decode

def Back (fuel : Nat) (s : Stmt) : Prop := Reads fuel (decode rules fuel) s.toJson s

theorem toJson_ne_null (s : Stmt) : s.toJson ≠ .null := by
  cases s <;> nofun

theorem listToJson_eq (ss : List Stmt) : listToJson ss = ss.map toJson := by
  induction ss with
  | nil => rfl
  | cons s tl ih => rw [listToJson, ih, map_cons]

private theorem optionToJson_eq (s : Option Stmt) : optionToJson s = .ofOption toJson s := by
  cases s <;> rfl

/-- The place that all statements have, and the way in which the kind of one is written. -/
private theorem reads_kind {k : Json} (loose : Loosens (loc.statementToJson k) other) (notNull : k ≠ .null) :
    ∃ written hit place, other = .obj written ∧ hit.depth < other.depth ∧ Loosens k hit ∧
      named ["kind", "location"] written = some [some hit, place] ∧
      required Location.ofJson? place = some loc := by
  obtain ⟨written, rfl, isNamed, h⟩ := loosens_record ["kind", "location"] rfl (by decide) loose
  simp only [forall_mem_cons] at h
  obtain ⟨heldKind, heldLocation, _⟩ := h
  obtain ⟨hit, isKind, below, within⟩ := heldKind.there notNull
  rw [map_cons, isKind] at isNamed
  exact ⟨written, hit, _, rfl, below, within, isNamed, heldLocation.required (Nat.le_refl _) nofun (loc.reads _)⟩

private theorem reads_variant {n : String} {data : Json}
    (loose : Loosens (loc.statementToJson (.variant n data)) other) (tag : isTag n) :
    ∃ written hit place, other = .obj written ∧ hit.depth + 1 < other.depth ∧ Loosens data hit ∧
      named ["kind", "location"] written = some [some (.variant n hit), place] ∧
      required Location.ofJson? place = some loc := by
  obtain ⟨written, k, place, rfl, below, within, isNamed, isLocation⟩ := reads_kind loose nofun
  obtain ⟨hit, rfl, inner⟩ := loosens_variant tag within
  rw [depth_variant] at below
  exact ⟨written, hit, place, rfl, below, inner, isNamed, isLocation⟩

variable {fuel : Nat} {thenStmt body : Stmt} {elseStmt : Option Stmt} {stmts : List Stmt}

/-- Statements that are nothing but a word. -/
private theorem reads_word (loc : Location) {s : Stmt} (word : s ∈ [breakLoop loc, continueLoop loc, empty loc]) :
    Back rules (fuel + 1) s := by
  intro other shallow loose
  simp only [mem_cons, not_mem_nil, or_false] at word
  rcases word with rfl | rfl | rfl
  all_goals
    obtain ⟨written, k, _, rfl, _, within, isNamed, isLocation⟩ := reads_kind loose nofun
    rw [loosens_str within] at isNamed
    simp [record, isNamed, isLocation, variant?]

private theorem reads_expr (val : Expr) (loc : Location) : Back rules (fuel + 1) (expr val loc) := by
  intro other shallow loose
  obtain ⟨written, data, _, rfl, _, within, isNamed, isLocation⟩ := reads_variant loose (by decide)
  have isValue := val.reads_all rules _ data (Nat.lt_succ_self _) within
  simp [record, isNamed, isLocation, isValue]

private theorem reads_compound (loc : Location) (areBody : ∀ s ∈ stmts, Back rules fuel s) :
    Back rules (fuel + 1) (compound stmts loc) := by
  intro other shallow loose
  obtain ⟨written, data, _, rfl, below, within, isNamed, isLocation⟩ := reads_variant loose (by decide)
  rw [listToJson_eq] at within
  obtain ⟨elems, rfl, each⟩ := loosens_arr within
  have isBody := reads_list areBody (by omega) each
  simp [record, isNamed, isLocation, list?, isBody]

private theorem reads_declare (decls : List Decl) (loc : Location) : Back rules (fuel + 1) (declare decls loc) := by
  intro other shallow loose
  obtain ⟨written, data, _, rfl, _, within, isNamed, isLocation⟩ := reads_variant loose (by decide)
  obtain ⟨fields, rfl, areNamed, h⟩ := loosens_record ["declarations"] rfl (by decide) within
  simp only [forall_mem_cons] at h
  have isDecls := h.1.list (Nat.le_refl _) fun decl _ => decl.reads rules _
  obtain ⟨elems, isList, isDecls⟩ := Option.bind_eq_some_iff.1 isDecls
  simp [record, Rules.variantRecord, isNamed, isLocation, areNamed, isList, isDecls]

private theorem reads_ifElse (cond : Expr) (loc : Location) (isThen : Back rules fuel thenStmt)
    (isElse : ∀ s, elseStmt = some s → Back rules fuel s) :
    Back rules (fuel + 1) (ifElse cond thenStmt elseStmt loc) := by
  intro other shallow loose
  obtain ⟨written, data, _, rfl, below, within, isNamed, isLocation⟩ := reads_variant loose (by decide)
  obtain ⟨fields, rfl, areNamed, h⟩ :=
    loosens_record ["condition", "then_stmt", "else_stmt"] rfl (by decide) within
  simp only [forall_mem_cons, optionToJson_eq] at h
  obtain ⟨heldCondition, heldThen, heldElse, _⟩ := h
  have isCondition := heldCondition.required (Nat.le_refl _) cond.toJson_ne_null (cond.reads_all rules _)
  have isThen := heldThen.required (d := fuel) (by omega) thenStmt.toJson_ne_null isThen
  have isElse := heldElse.optional (d := fuel) (by omega) toJson_ne_null isElse
  simp [record, Rules.variantRecord, isNamed, isLocation, areNamed, isCondition, isThen, isElse]

private theorem reads_whileDo (cond : Expr) (loc : Location) (isBody : Back rules fuel body) :
    Back rules (fuel + 1) (whileDo cond body loc) := by
  intro other shallow loose
  obtain ⟨written, data, _, rfl, below, within, isNamed, isLocation⟩ := reads_variant loose (by decide)
  obtain ⟨fields, rfl, areNamed, h⟩ := loosens_record ["condition", "body"] rfl (by decide) within
  simp only [forall_mem_cons] at h
  obtain ⟨heldCondition, heldBody, _⟩ := h
  have isCondition := heldCondition.required (Nat.le_refl _) cond.toJson_ne_null (cond.reads_all rules _)
  have isBody := heldBody.required (d := fuel) (by omega) body.toJson_ne_null isBody
  simp [record, Rules.variantRecord, isNamed, isLocation, areNamed, isCondition, isBody]

private theorem reads_ret (val : Option Expr) (loc : Location) : Back rules (fuel + 1) (ret val loc) := by
  intro other shallow loose
  obtain ⟨written, data, _, rfl, _, within, isNamed, isLocation⟩ := reads_variant loose (by decide)
  have isValue : optional (Expr.ofJson? rules) (some data) = some val := by
    refine optional_reads within Expr.toJson_ne_null ?_
    rintro e rfl
    exact e.reads_all rules _ data (Nat.lt_succ_self _) within
  simp [record, isNamed, isLocation, isValue]

mutual
theorem reads : ∀ (s : Stmt) (fuel : Nat), Back rules fuel s
  | _, 0 => nofun
  | .breakLoop loc, _ + 1 | .continueLoop loc, _ + 1 | .empty loc, _ + 1 =>
    reads_word rules loc (by simp)
  | .expr val loc, _ + 1 => reads_expr rules val loc
  | .compound body loc, fuel + 1 => reads_compound rules loc fun s mem => listReads body s mem fuel
  | .declare decls loc, _ + 1 => reads_declare rules decls loc
  | .ifElse cond thenStmt elseStmt loc, fuel + 1 => reads_ifElse rules cond loc (reads thenStmt fuel) (optionReads elseStmt fuel)
  | .whileDo cond body loc, fuel + 1 => reads_whileDo rules cond loc (reads body fuel)
  | .ret val loc, _ + 1 => reads_ret rules val loc

theorem listReads : ∀ ss : List Stmt, ∀ s ∈ ss, ∀ fuel, Back rules fuel s
  | s :: tl, other, member, fuel => by
    rcases mem_cons.1 member with same | member
    · exact same ▸ reads s fuel
    · exact listReads tl other member fuel

theorem optionReads : ∀ (o : Option Stmt) (fuel : Nat) (s : Stmt), o = some s → Back rules fuel s
  | some s, fuel, _, eq => Option.some.inj eq ▸ reads s fuel
end

theorem reads_all (s : Stmt) (d : Nat) : Reads d (ofJson? rules) s.toJson s := fun other _ loose =>
  reads rules s (other.depth + 1) other (Nat.lt_succ_self _) loose

end Stmt

theorem Param.reads (param : Param) (d : Nat) : Reads d (Param.ofJson? rules) param.toJson param := by
  intro other _ loose
  obtain ⟨written, rfl, isNamed, h⟩ :=
    loosens_record ["name", "param_type", "location"] rfl (by decide) loose
  simp only [forall_mem_cons] at h
  obtain ⟨heldName, heldTy, heldLocation, _⟩ := h
  have isName := heldName.required (Nat.le_refl _) nofun (reads_str param.name)
  have isTy := heldTy.required (Nat.le_refl _) param.ty.toJson_ne_null (param.ty.reads_all rules _)
  have isLocation := heldLocation.required (Nat.le_refl _) nofun (param.location.reads _)
  simp [Param.ofJson?, record, isNamed, isName, isTy, isLocation]

theorem FuncDef.reads (f : FuncDef) (d : Nat) : Reads d (FuncDef.ofJson? rules) f.toJson f := by
  intro other _ loose
  obtain ⟨written, rfl, isNamed, h⟩ :=
    loosens_record ["name", "return_type", "parameters", "body", "location"] rfl (by decide) loose
  simp only [forall_mem_cons] at h
  obtain ⟨heldName, heldTy, heldParams, heldBody, heldLocation, _⟩ := h
  have isName := heldName.required (Nat.le_refl _) nofun (reads_str f.name)
  have isTy := heldTy.required (Nat.le_refl _) f.returnType.toJson_ne_null (f.returnType.reads_all rules _)
  have isParams := heldParams.list (Nat.le_refl _) fun param _ => param.reads rules _
  obtain ⟨elems, isList, isParams⟩ := Option.bind_eq_some_iff.1 isParams
  have isBody := heldBody.required (Nat.le_refl _) f.body.toJson_ne_null (f.body.reads_all rules _)
  have isLocation := heldLocation.required (Nat.le_refl _) nofun (f.location.reads _)
  simp [FuncDef.ofJson?, record, isNamed, isName, isTy, isList, isParams, isBody, isLocation]

theorem Item.reads (item : Item) (d : Nat) : Reads d (Item.ofJson? rules) item.toJson item := by
  intro other _ loose
  cases item with
  | func f =>
    obtain ⟨data, rfl, within⟩ := loosens_variant (by decide) loose
    simp [Item.ofJson?, f.reads rules _ data (Nat.lt_succ_self _) within]
  | global decl =>
    obtain ⟨data, rfl, within⟩ := loosens_variant (by decide) loose
    simp [Item.ofJson?, decl.reads rules _ data (Nat.lt_succ_self _) within]

theorem Program.reads (program : Program) (d : Nat) : Reads d (Program.ofJson? rules) program.toJson program := by
  intro other _ loose
  obtain ⟨written, rfl, isNamed, h⟩ := loosens_record ["items"] rfl (by decide) loose
  simp only [forall_mem_cons] at h
  have isItems := h.1.list (Nat.le_refl _) fun item _ => item.reads rules _
  obtain ⟨elems, isList, isItems⟩ := Option.bind_eq_some_iff.1 isItems
  simp [Program.ofJson?, record, isNamed, isList, isItems]

end Nodes

private theorem Severity.toJson_ne_null (severity : Severity) : severity.toJson ≠ .null := by
  cases severity <;> nofun

theorem Severity.reads (severity : Severity) (d : Nat) : Reads d Severity.ofJson? severity.toJson severity := by
  intro other _ loose
  cases severity <;> rw [loosens_str loose] <;> rfl

theorem Diagnostic.reads (diagnostic : Diagnostic) (d : Nat) :
    Reads d Diagnostic.ofJson? diagnostic.toJson diagnostic := by
  intro other _ loose
  obtain ⟨written, rfl, isNamed, h⟩ :=
    loosens_record ["severity", "message", "location", "identifier"] rfl (by decide) loose
  simp only [forall_mem_cons] at h
  obtain ⟨heldSeverity, heldMessage, heldLocation, heldIdentifier, _⟩ := h
  have isSeverity := heldSeverity.required (Nat.le_refl _) diagnostic.severity.toJson_ne_null (diagnostic.severity.reads _)
  have isMessage := heldMessage.required (Nat.le_refl _) nofun (reads_str diagnostic.message)
  have isLocation := heldLocation.required (Nat.le_refl _) nofun (diagnostic.location.reads _)
  have isIdentifier := heldIdentifier.optional (Nat.le_refl _) (fun _ => nofun) fun text _ => reads_str text
  simp [Diagnostic.ofJson?, record, isNamed, isSeverity, isMessage, isLocation, isIdentifier]

/-- What can be read back from a value as it was written, and however loosely. -/
def ReadsBack {α : Type} (encode : α → Json) (decode : Json → Option α) : Prop :=
  ∀ x, decode (encode x) = some x ∧ ∀ other, Loosens (encode x) other → decode other = some x

private theorem readsBack_of_reads {α : Type} {encode : α → Json} {decode : Json → Option α}
    (reads : ∀ x d, Reads d decode (encode x) x) : ReadsBack encode decode := by
  intro x
  have all : ∀ other, Loosens (encode x) other → decode other = some x := fun other loose => reads x _ other (Nat.lt_succ_self _) loose
  exact ⟨all _ (.same _), all⟩

/-- Nothing is lost when programs and their parts are written down. This does not depend on the order in which the
fields of a record stand, on fields that nobody knows, or on whether a field that is null is written at all. -/
theorem Json.loosened_reads_back (rules : Json.Rules) :
    ReadsBack Program.toJson (Program.ofJson? rules) ∧ ReadsBack Stmt.toJson (Stmt.ofJson? rules) ∧
      ReadsBack Expr.toJson (Expr.ofJson? rules) ∧ ReadsBack Ty.toJson (Ty.ofJson? rules) ∧
      ReadsBack Location.toJson Location.ofJson? ∧ ReadsBack Diagnostic.toJson Diagnostic.ofJson? :=
  ⟨readsBack_of_reads (Program.reads rules), readsBack_of_reads (Stmt.reads_all rules),
    readsBack_of_reads (Expr.reads_all rules), readsBack_of_reads (Ty.reads_all rules),
    readsBack_of_reads Location.reads, readsBack_of_reads Diagnostic.reads⟩

end Midend
