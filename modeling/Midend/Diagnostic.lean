import Midend.Location

/-! Errors and warnings found in a program, and the report that collects them in
the order in which they were found. -/
namespace Midend

inductive Severity where
  | error
  | warning
deriving DecidableEq, Repr

def Severity.text : Severity → String
  | .error => "error"
  | .warning => "warning"

structure Diagnostic where
  severity : Severity
  message : String
  location : Location
  identifier : Option String := none
deriving DecidableEq, Repr

def Diagnostic.text (d : Diagnostic) : String :=
  let line := d.location.text ++ ": " ++ d.severity.text ++ ": " ++ d.message
  match d.identifier with
  | some name => line ++ " '" ++ name ++ "'"
  | none => line

structure Report where
  diagnostics : List Diagnostic := []
  errorCount : Nat := 0
  warningCount : Nat := 0
deriving DecidableEq, Repr, Inhabited

namespace Report

def add (report : Report) (d : Diagnostic) : Report :=
  let counted := match d.severity with
    | .error => { report with errorCount := report.errorCount + 1 }
    | .warning => { report with warningCount := report.warningCount + 1 }
  { counted with diagnostics := report.diagnostics ++ [d] }

@[simp] theorem diagnostics_add (report : Report) (d : Diagnostic) :
    (report.add d).diagnostics = report.diagnostics ++ [d] := rfl

def hasErrors (report : Report) : Bool := 0 < report.errorCount

def counted (n : Nat) (noun : String) : String :=
  toString n ++ " " ++ noun ++ if n = 1 then "" else "s"

def summary (report : Report) : String :=
  match report.errorCount, report.warningCount with
  | 0, 0 => "No errors or warnings"
  | 0, w => counted w "warning"
  | e, 0 => counted e "error"
  | e, w => counted e "error" ++ " and " ++ counted w "warning"

end Report
end Midend
