import Midend.Compile
import Midend.Cli.Arguments
import Midend.Cli.Files
import Midend.Json.Writer
import Midend.Tree.Decode
import Midend.Tree.Sample

/-! The commands of the command line. What they read and write in files goes through a
file system that the caller gives. -/
namespace Midend.Cli

structure Output where
  code : UInt32 := 0
  stdout : String := ""
  stderr : String := ""
deriving DecidableEq, Repr

inductive Defeat where
  | message (text : String)
  | fault (f : Fault)

structure Console where
  out : String := ""
  err : String := ""

abbrev Printing := ExceptT Defeat (StateM Console)

def print (text : String) : Printing Unit := modify fun c => { c with out := c.out ++ text }

def printError (text : String) : Printing Unit := modify fun c => { c with err := c.err ++ text }

def sound {α : Type} : Except Fault α → Printing α
  | .ok value => return value
  | .error f => throw (.fault f)

inductive Plan where
  | level (level : UInt8)
  | named (names : List String)

def lowered (p : Program) (name : String) : Printing Module := do
  let state ← sound ((Lowering.start name).program p)
  state.module.report.diagnostics.forM fun d => printError (d.text ++ "\n")
  match state.finish with
  | .ok m => return m
  | .error e => throw (.message e.text)

def ran {α : Type} : Except RunError α → Printing α
  | .ok value => return value
  | .error (.pass e) => throw (.message e.message)
  | .error (.fault f) => throw (.fault f)

def compiled (p : Program) (name : String) (plan : Plan) (printIr : Bool) : Printing String := do
  let m ← lowered p name
  if printIr then
    print ("=== IR ===\n" ++ (← sound m.text) ++ "=== End IR ===\n\n")
  let pipeline : Pipeline Unit := { module := some m, memory := () }
  let pipeline := pipeline.registerBuiltin
  let pipeline ← match plan with
    | .level level => (·.2) <$> ran { pipeline with level }.runWanted
    | .named names =>
      names.foldlM (fun (p : Pipeline Unit) name => (·.2) <$> ran (p.runNamed name)) pipeline
  match pipeline.module with
  | some m => sound m.text
  | none => throw (.message "pass manager lost the module")

def stem (path : String) : String :=
  match ((path.splitOn "/").filter fun part => part ≠ "" ∧ part ≠ ".").getLast? with
  | none | some ".." => "module"
  | some file =>
    match (file.splitOn ".").dropLast with
    | [] | [""] => file
    | parts => String.intercalate "." parts

def compileText (options : CompileOptions) (text : String) : Printing String := do
  match Program.read? text with
  | none => throw (.message "not a program")
  | some p =>
    let plan := match options.passes with
      | some names => Plan.named names
      | none => .level options.level
    compiled p (stem options.input) plan options.printIr

def demo (options : DemoOptions) : Printing Unit := do
  match Sample.find? options.name with
  | none =>
    throw (.message ("Unknown demo '" ++ options.name ++ "' (available: " ++ Sample.names ++ ")"))
  | some p =>
    if options.emitAst then print (p.toJson.pretty ++ "\n")
    else
      let ir ← compiled p options.name (.level options.level) true
      print ("=== Optimised IR (-O" ++ toString options.level.toNat ++ ") ===\n" ++ ir)

def passLine (pass : Pass Unit) : String :=
  let requires :=
    if pass.requires.isEmpty then ""
    else ", requires " ++ String.intercalate ", " pass.requires
  let name := pass.name ++ String.ofList (List.replicate (16 - pass.name.length) ' ')
  name ++ " -O" ++ toString pass.level.toNat ++ requires ++ "\n"

def finished (lead : String) (result : Except Defeat Unit) (c : Console) : Output :=
  match result with
  | .ok () => { code := 0, stdout := c.out, stderr := c.err }
  | .error (.message text) =>
    { code := 1, stdout := c.out, stderr := c.err ++ lead ++ text ++ "\n" }
  | .error (.fault f) => { code := 101, stdout := c.out, stderr := c.err ++ f.message ++ "\n" }

def execute {m : Type → Type} [Monad m] (files : FileSystem m) : Command → m Output
  | .passes => return { stdout := String.join (Pass.builtin.map passLine) }
  | .demo options =>
    let (result, console) := (demo options).run.run {}
    return finished "Error running demo: " result console
  | .compile options => do
    let lead := "Error compiling " ++ options.input ++ ": "
    match ← files.read options.input with
    | .error e => return finished lead (.error (.message e.message)) {}
    | .ok text =>
      match (compileText options text).run.run {}, options.output with
      | (.error defeat, console), _ => return finished lead (.error defeat) console
      | (.ok ir, console), none =>
        return finished lead (.ok ()) { console with out := console.out ++ ir }
      | (.ok ir, console), some path =>
        match ← files.write path ir with
        | .error e => return finished lead (.error (.message e.message)) console
        | .ok () =>
          let line := "IR written to: " ++ path ++ "\n"
          return finished lead (.ok ()) { console with out := console.out ++ line }

def versionText : String := "rjitc 0.1.0\n"

def usageText : String := "usage: rjitc compile FILE | demo [NAME] | passes\n"

def run {m : Type → Type} [Monad m] (files : FileSystem m) (args : List String) : m Output :=
  match command args with
  | .ok c => execute files c
  | .error .version => return { stdout := versionText }
  | .error .help => return { stdout := usageText }
  | .error .misuse => return { code := 2, stderr := usageText }

end Midend.Cli
