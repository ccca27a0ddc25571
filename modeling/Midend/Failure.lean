import Midend.Location

/-! Why a whole compilation gave no result. -/
namespace Midend

inductive Failure where
  | lowering (location : Location) (message : String)
  | loweringFailed (summary : String)
  | pass (message : String)
deriving DecidableEq, Repr

def Failure.message : Failure → String
  | .lowering location message => "Lowering error at " ++ location.text ++ ": " ++ message
  | .loweringFailed summary => "Lowering failed: " ++ summary
  | .pass message => "Pass error: " ++ message

end Midend
