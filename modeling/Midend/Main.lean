import Midend.Cli.Run

/-! The command line program. -/
namespace Midend.Cli

def detailsOf : IO.Error → Option (UInt32 × String)
  | .noFileOrDirectory _ code details | .inappropriateType _ code details
  | .permissionDenied _ code details | .invalidArgument _ code details
  | .resourceExhausted _ code details | .otherError code details => some (code, details)
  | _ => none

def fileError (e : IO.Error) : FileError :=
  match detailsOf e with
  | some (code, details) => .other (details ++ " (os error " ++ toString code.toNat ++ ")")
  | none => .other (toString e)

def realFiles : FileSystem IO where
  read name := do
    try return .ok (← IO.FS.readFile name)
    catch e => return .error (fileError e)
  write name text := do
    try return .ok (← IO.FS.writeFile name text)
    catch e => return .error (fileError e)

end Midend.Cli

def main (args : List String) : IO UInt32 := do
  let output ← Midend.Cli.run Midend.Cli.realFiles args
  (← IO.getStdout).putStr output.stdout
  (← IO.getStderr).putStr output.stderr
  return output.code
