import Midend.Json.Reader
import Midend.Tree.Encode

/-! Reading programs and their parts from JSON. Fields may stand in any order, other
fields are passed over, and a missing optional field counts as null. -/
namespace Midend

structure Json.Rules where
  positionalVariants : Bool
deriving DecidableEq, Repr

namespace Json.Rules

def document : Json.Rules := ⟨true⟩

def embedded : Json.Rules := ⟨false⟩

def variantRecord (rules : Json.Rules) (names : List String) (data : Json) :
    Option (List (Option Json)) :=
  match data with
  | .arr _ => if rules.positionalVariants then data.record names else none
  | _ => data.record names

end Json.Rules

def Json.variant? : Json → Option (String × Option Json)
  | .str name => some (name, none)
  | .obj [(name, data)] => some (name, some data)
  | _ => none

def Json.plainVariant? (value : Json) : Option String :=
  match value.variant? with
  | some (name, none) | some (name, some .null) => some name
  | _ => none

def Location.ofJson? (value : Json) : Option Location := do
  match ← value.record ["filename", "line", "column"] with
  | [file, line, column] =>
    return ⟨← Json.required Json.string? file, ← Json.required Json.uint32? line,
      ← Json.required Json.uint32? column⟩
  | _ => none

def Ty.ofName? : String → Option Ty
  | "Void" => some .void
  | "Bool" => some .bool
  | "Int8" => some .int8
  | "Int32" => some .int32
  | "UInt8" => some .uint8
  | "UInt32" => some .uint32
  | "Str" => some .str
  | "Label" => some .label
  | _ => none

def Ty.decode (rules : Json.Rules) : (fuel : Nat) → Json → Option Ty
  | 0, _ => none
  | fuel + 1, value =>
    match value.plainVariant? with
    | some name => Ty.ofName? name
    | none =>
      match value.variant? with
      | some ("Const", some inner) => (Ty.decode rules fuel inner).map .const
      | some ("Pointer", some pointee) => (Ty.decode rules fuel pointee).map .pointer
      | some ("Function", some data) => do
        match ← rules.variantRecord ["params", "ret"] data with
        | [params, ret] =>
          let params ← Json.required Json.list? params
          return .func (← params.mapM (Ty.decode rules fuel))
            (← Json.required (Ty.decode rules fuel) ret)
        | _ => none
      | _ => none

def Ty.ofJson? (rules : Json.Rules) (value : Json) : Option Ty :=
  Ty.decode rules (value.depth + 1) value

def Severity.ofJson? (value : Json) : Option Severity :=
  match value.plainVariant? with
  | some "Error" => some .error
  | some "Warning" => some .warning
  | _ => none

def Diagnostic.ofJson? (value : Json) : Option Diagnostic := do
  match ← value.record ["severity", "message", "location", "identifier"] with
  | [severity, message, location, identifier] =>
    return ⟨← Json.required Severity.ofJson? severity, ← Json.required Json.string? message,
      ← Json.required Location.ofJson? location, ← Json.optional Json.string? identifier⟩
  | _ => none

def BinaryOp.ofJson? (value : Json) : Option BinaryOp := value.plainVariant?.bind BinaryOp.ofName?

def UnaryOp.ofJson? (value : Json) : Option UnaryOp := value.plainVariant?.bind UnaryOp.ofName?

def Expr.decode (rules : Json.Rules) : (fuel : Nat) → Json → Option Expr
  | 0, _ => none
  | fuel + 1, value => do
    match ← value.record ["kind", "location", "expr_type"] with
    | [kind, location, ty] =>
      let note : Note :=
        ⟨← Json.required Location.ofJson? location, ← Json.required (Ty.ofJson? rules) ty⟩
      match ← kind.bind Json.variant? with
      | ("IntLiteral", some data) => return .int (← data.int64?) note
      | ("CharLiteral", some data) => return .char (← data.uint8?) note
      | ("StringLiteral", some data) => return .string (← data.string?) note
      | ("Identifier", some data) =>
        match ← rules.variantRecord ["name"] data with
        | [name] => return .ident (← Json.required Json.string? name) note
        | _ => none
      | ("Binary", some data) =>
        match ← rules.variantRecord ["op", "left", "right"] data with
        | [op, left, right] =>
          return .binary (← Json.required BinaryOp.ofJson? op)
            (← Json.required (Expr.decode rules fuel) left)
            (← Json.required (Expr.decode rules fuel) right) note
        | _ => none
      | ("Unary", some data) =>
        match ← rules.variantRecord ["op", "operand"] data with
        | [op, operand] =>
          return .unary (← Json.required UnaryOp.ofJson? op)
            (← Json.required (Expr.decode rules fuel) operand) note
        | _ => none
      | ("Call", some data) =>
        match ← rules.variantRecord ["function", "arguments"] data with
        | [function, arguments] =>
          let arguments ← Json.required Json.list? arguments
          return .call (← Json.required Json.string? function)
            (← arguments.mapM (Expr.decode rules fuel)) note
        | _ => none
      | _ => none
    | _ => none

def Expr.ofJson? (rules : Json.Rules) (value : Json) : Option Expr :=
  Expr.decode rules (value.depth + 1) value

def Decl.ofJson? (rules : Json.Rules) (value : Json) : Option Decl := do
  match ← value.record ["name", "decl_type", "initializer", "location"] with
  | [name, ty, initializer, location] =>
    return ⟨← Json.required Json.string? name, ← Json.required (Ty.ofJson? rules) ty,
      ← Json.optional (Expr.ofJson? rules) initializer, ← Json.required Location.ofJson? location⟩
  | _ => none

def Stmt.decode (rules : Json.Rules) : (fuel : Nat) → Json → Option Stmt
  | 0, _ => none
  | fuel + 1, value => do
    match ← value.record ["kind", "location"] with
    | [kind, location] =>
      let location ← Json.required Location.ofJson? location
      match ← kind.bind Json.variant? with
      | ("Break", none) | ("Break", some .null) => return .breakLoop location
      | ("Continue", none) | ("Continue", some .null) => return .continueLoop location
      | ("Empty", none) | ("Empty", some .null) => return .empty location
      | ("Expression", some data) => return .expr (← Expr.ofJson? rules data) location
      | ("Compound", some data) =>
        return .compound (← (← data.list?).mapM (Stmt.decode rules fuel)) location
      | ("Declaration", some data) =>
        match ← rules.variantRecord ["declarations"] data with
        | [decls] =>
          let decls ← Json.required Json.list? decls
          return .declare (← decls.mapM (Decl.ofJson? rules)) location
        | _ => none
      | ("If", some data) =>
        match ← rules.variantRecord ["condition", "then_stmt", "else_stmt"] data with
        | [condition, thenStmt, elseStmt] =>
          return .ifElse (← Json.required (Expr.ofJson? rules) condition)
            (← Json.required (Stmt.decode rules fuel) thenStmt)
            (← Json.optional (Stmt.decode rules fuel) elseStmt) location
        | _ => none
      | ("While", some data) =>
        match ← rules.variantRecord ["condition", "body"] data with
        | [condition, body] =>
          return .whileDo (← Json.required (Expr.ofJson? rules) condition)
            (← Json.required (Stmt.decode rules fuel) body) location
        | _ => none
      | ("Return", some data) =>
        return .ret (← Json.optional (Expr.ofJson? rules) (some data)) location
      | _ => none
    | _ => none

def Stmt.ofJson? (rules : Json.Rules) (value : Json) : Option Stmt :=
  Stmt.decode rules (value.depth + 1) value

def Param.ofJson? (rules : Json.Rules) (value : Json) : Option Param := do
  match ← value.record ["name", "param_type", "location"] with
  | [name, ty, location] =>
    return ⟨← Json.required Json.string? name, ← Json.required (Ty.ofJson? rules) ty,
      ← Json.required Location.ofJson? location⟩
  | _ => none

def FuncDef.ofJson? (rules : Json.Rules) (value : Json) : Option FuncDef := do
  match ← value.record ["name", "return_type", "parameters", "body", "location"] with
  | [name, returnType, params, body, location] =>
    let params ← Json.required Json.list? params
    return ⟨← Json.required Json.string? name, ← Json.required (Ty.ofJson? rules) returnType,
      ← params.mapM (Param.ofJson? rules), ← Json.required (Stmt.ofJson? rules) body,
      ← Json.required Location.ofJson? location⟩
  | _ => none

def Item.ofJson? (rules : Json.Rules) (value : Json) : Option Item :=
  match value.variant? with
  | some ("Function", some data) => (FuncDef.ofJson? rules data).map .func
  | some ("Declaration", some data) => (Decl.ofJson? rules data).map .global
  | _ => none

def Program.ofJson? (rules : Json.Rules) (value : Json) : Option Program := do
  match ← value.record ["items"] with
  | [items] =>
    let items ← Json.required Json.list? items
    return ⟨← items.mapM (Item.ofJson? rules)⟩
  | _ => none

def Program.read? (document : String) : Option Program :=
  (Json.read? document).bind (Program.ofJson? .document)

end Midend
