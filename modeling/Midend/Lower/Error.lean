import Midend.Failure

/-! Mistakes in a program that lowering finds. -/
namespace Midend

inductive LowerError where
  | undefinedFunction (name : String) (location : Location)
  | functionRedefined (name : String) (location : Location)
  | undefinedVariable (name : String) (location : Location)
  | invalidAssignTarget (location : Location)
  | nonConstantInitializer (name : String) (location : Location)
  | nonIntegerCondition (found : String) (location : Location)
  | nonIntegerOperand (found : String) (location : Location)
  | breakOutsideLoop (location : Location)
  | continueOutsideLoop (location : Location)
  | failed (count : Nat) (summary : String)
deriving DecidableEq, Repr

namespace LowerError

def message : LowerError → String
  | .undefinedFunction .. => "undefined function"
  | .functionRedefined .. => "function redefined"
  | .undefinedVariable .. => "undefined variable"
  | .invalidAssignTarget .. => "invalid assignment target"
  | .nonConstantInitializer .. => "global initializer is not a constant"
  | .nonIntegerCondition .. => "condition is not an integer"
  | .nonIntegerOperand .. => "operand is not an integer"
  | .breakOutsideLoop .. => "'break' outside of a loop"
  | .continueOutsideLoop .. => "'continue' outside of a loop"
  | .failed .. => "lowering failed"

def identifier? : LowerError → Option String
  | .undefinedFunction name _ | .functionRedefined name _ | .undefinedVariable name _
  | .nonConstantInitializer name _ => some name
  | _ => none

def location? : LowerError → Option Location
  | .undefinedFunction _ location | .functionRedefined _ location | .undefinedVariable _ location
  | .invalidAssignTarget location | .nonConstantInitializer _ location
  | .nonIntegerCondition _ location | .nonIntegerOperand _ location | .breakOutsideLoop location
  | .continueOutsideLoop location => some location
  | .failed .. => none

def text : LowerError → String
  | .undefinedFunction name location =>
    "Undefined function '" ++ name ++ "' at " ++ location.text
  | .functionRedefined name location =>
    "Redefinition of function '" ++ name ++ "' at " ++ location.text
  | .undefinedVariable name location =>
    "Undefined variable '" ++ name ++ "' at " ++ location.text
  | .invalidAssignTarget location => "Invalid assignment target at " ++ location.text
  | .nonConstantInitializer name location =>
    "Initializer of global '" ++ name ++ "' is not a constant at " ++ location.text
  | .nonIntegerCondition found location =>
    "Condition of type " ++ found ++ " is not an integer at " ++ location.text
  | .nonIntegerOperand found location =>
    "Operand of type " ++ found ++ " is not an integer at " ++ location.text
  | .breakOutsideLoop location => "'break' outside of a loop at " ++ location.text
  | .continueOutsideLoop location => "'continue' outside of a loop at " ++ location.text
  | .failed _ summary => "Lowering failed: " ++ summary

def toFailure (e : LowerError) : Failure :=
  match e with
  | .failed _ summary => .loweringFailed summary
  | e =>
    let message := match e.identifier? with
      | some name => e.message ++ " '" ++ name ++ "'"
      | none => e.message
    .lowering (e.location?.getD .unknown) message

end LowerError
end Midend
