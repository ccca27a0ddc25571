import Midend.Json.Basic
import Midend.Diagnostic
import Midend.Tree.Stmt

/-! The JSON form of programs and their parts. A record is an object with all its
fields, a missing part is null, a variant without data is its name, and any other
variant is an object with its name as the only field. -/
namespace Midend

def Json.variant (name : String) (data : Json) : Json := .obj [(name, data)]

def Json.ofOption {α : Type} (encode : α → Json) : Option α → Json
  | none => .null
  | some value => encode value

def Location.toJson (l : Location) : Json :=
  .obj [("filename", .str l.file), ("line", .int l.line.toNat), ("column", .int l.column.toNat)]

mutual
def Ty.toJson : Ty → Json
  | .void => .str "Void"
  | .bool => .str "Bool"
  | .int8 => .str "Int8"
  | .int32 => .str "Int32"
  | .uint8 => .str "UInt8"
  | .uint32 => .str "UInt32"
  | .str => .str "Str"
  | .label => .str "Label"
  | .const inner => .variant "Const" inner.toJson
  | .pointer pointee => .variant "Pointer" pointee.toJson
  | .func params ret =>
    .variant "Function" (.obj [("params", .arr (Ty.listToJson params)), ("ret", ret.toJson)])

def Ty.listToJson : List Ty → List Json
  | [] => []
  | ty :: rest => ty.toJson :: Ty.listToJson rest
end

def Severity.toJson : Severity → Json
  | .error => .str "Error"
  | .warning => .str "Warning"

def Diagnostic.toJson (d : Diagnostic) : Json :=
  .obj [("severity", d.severity.toJson), ("message", .str d.message),
    ("location", d.location.toJson), ("identifier", .ofOption .str d.identifier)]

def BinaryOp.toJson (op : BinaryOp) : Json := .str op.name

def UnaryOp.toJson (op : UnaryOp) : Json := .str op.name

def Note.toJson (note : Note) (kind : Json) : Json :=
  .obj [("kind", kind), ("location", note.location.toJson), ("expr_type", note.ty.toJson)]

mutual
def Expr.toJson : Expr → Json
  | .int value note => note.toJson (.variant "IntLiteral" (.int value.toInt))
  | .char value note => note.toJson (.variant "CharLiteral" (.int value.toNat))
  | .string value note => note.toJson (.variant "StringLiteral" (.str value))
  | .ident name note => note.toJson (.variant "Identifier" (.obj [("name", .str name)]))
  | .binary op left right note =>
    note.toJson (.variant "Binary"
      (.obj [("op", op.toJson), ("left", left.toJson), ("right", right.toJson)]))
  | .unary op operand note =>
    note.toJson (.variant "Unary" (.obj [("op", op.toJson), ("operand", operand.toJson)]))
  | .call function arguments note =>
    note.toJson (.variant "Call"
      (.obj [("function", .str function), ("arguments", .arr (Expr.listToJson arguments))]))

def Expr.listToJson : List Expr → List Json
  | [] => []
  | e :: rest => e.toJson :: Expr.listToJson rest
end

def Decl.toJson (d : Decl) : Json :=
  .obj [("name", .str d.name), ("decl_type", d.ty.toJson),
    ("initializer", .ofOption Expr.toJson d.initializer), ("location", d.location.toJson)]

def Location.statementToJson (location : Location) (kind : Json) : Json :=
  .obj [("kind", kind), ("location", location.toJson)]

mutual
def Stmt.toJson : Stmt → Json
  | .expr value location => location.statementToJson (.variant "Expression" value.toJson)
  | .compound body location =>
    location.statementToJson (.variant "Compound" (.arr (Stmt.listToJson body)))
  | .declare decls location =>
    location.statementToJson
      (.variant "Declaration" (.obj [("declarations", .arr (decls.map Decl.toJson))]))
  | .ifElse condition thenStmt elseStmt location =>
    location.statementToJson (.variant "If"
      (.obj [("condition", condition.toJson), ("then_stmt", thenStmt.toJson),
        ("else_stmt", Stmt.optionToJson elseStmt)]))
  | .whileDo condition body location =>
    location.statementToJson
      (.variant "While" (.obj [("condition", condition.toJson), ("body", body.toJson)]))
  | .breakLoop location => location.statementToJson (.str "Break")
  | .continueLoop location => location.statementToJson (.str "Continue")
  | .ret value location =>
    location.statementToJson (.variant "Return" (.ofOption Expr.toJson value))
  | .empty location => location.statementToJson (.str "Empty")

def Stmt.listToJson : List Stmt → List Json
  | [] => []
  | s :: rest => s.toJson :: Stmt.listToJson rest

def Stmt.optionToJson : Option Stmt → Json
  | none => .null
  | some s => s.toJson
end

def Param.toJson (p : Param) : Json :=
  .obj [("name", .str p.name), ("param_type", p.ty.toJson), ("location", p.location.toJson)]

def FuncDef.toJson (f : FuncDef) : Json :=
  .obj [("name", .str f.name), ("return_type", f.returnType.toJson),
    ("parameters", .arr (f.params.map Param.toJson)), ("body", f.body.toJson),
    ("location", f.location.toJson)]

def Item.toJson : Item → Json
  | .func f => .variant "Function" f.toJson
  | .global d => .variant "Declaration" d.toJson

def Program.toJson (p : Program) : Json := .obj [("items", .arr (p.items.map Item.toJson))]

end Midend
