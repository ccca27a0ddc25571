/-! Reading the arguments of the command line. Options may stand anywhere after the name
of the command; a lone pair of dashes ends them. -/
namespace Midend.Cli

inductive ValueKind where
  | text
  | level
  | file
deriving DecidableEq, Repr

structure Flag where
  long : String
  short : Option Char
  value : Option ValueKind := none
  repeatable : Bool := false

structure Grammar where
  flags : List Flag
  operand : Option ValueKind := none

inductive Stop where
  | misuse
  | help
  | version
deriving DecidableEq, Repr

def decimal? (text : String) : Option Int :=
  let digits? (digits : List Char) : Option Nat :=
    if digits ≠ [] ∧ digits.all Char.isDigit then
      some (digits.foldl (fun n c => n * 10 + (c.toNat - '0'.toNat)) 0)
    else none
  match text.toList with
  | '-' :: digits => (digits? digits).map fun n => -(n : Int)
  | '+' :: digits => (digits? digits).map fun n => (n : Int)
  | digits => (digits? digits).map fun n => (n : Int)

def level? (text : String) : Option UInt8 :=
  match decimal? text with
  | some n => if 0 ≤ n ∧ n ≤ 255 then some n.toNat.toUInt8 else none
  | none => none

def ValueKind.accepts : ValueKind → String → Bool
  | .text, _ => true
  | .level, value => (level? value).isSome
  | .file, value => value ≠ ""

structure Scan where
  options : List (String × String) := []
  operand : Option String := none

namespace Scan

def has (s : Scan) (long : String) : Bool := s.options.any (·.1 == long)

def value? (s : Scan) (long : String) : Option String := s.options.lookup long

def values (s : Scan) (long : String) : List String :=
  (s.options.filter (·.1 == long)).map (·.2)

def give (s : Scan) (flag : Flag) (value : String) : Except Stop Scan :=
  if flag.long = "help" then .error .help
  else if flag.long = "version" then .error .version
  else if s.has flag.long && !flag.repeatable then .error .misuse
  else if flag.value.any (!·.accepts value) then .error .misuse
  else .ok { s with options := s.options ++ [(flag.long, value)] }

def giveOperand (s : Scan) (g : Grammar) (value : String) : Except Stop Scan :=
  match s.operand, g.operand with
  | none, some kind =>
    if kind.accepts value then .ok { s with operand := some value } else .error .misuse
  | _, _ => .error .misuse

end Scan

def looksLikeOption (arg : String) : Bool := arg.startsWith "-" && arg ≠ "-"

def splitValue (text : List Char) : List Char × Option (List Char) :=
  match text.dropWhile (· ≠ '=') with
  | _ :: value => (text.takeWhile (· ≠ '='), some value)
  | [] => (text, none)

/-- Reads options of one letter that stand together. Gives the option that still lacks its
value, if the last one does. -/
def scanLetters (flags : List Flag) (s : Scan) : List Char → Except Stop (Scan × Option Flag)
  | [] => .ok (s, none)
  | letter :: rest =>
    match flags.find? (·.short == some letter) with
    | none => .error .misuse
    | some flag =>
      if flag.value.isSome then
        match rest with
        | [] => .ok (s, some flag)
        | '=' :: value => (·, none) <$> s.give flag (String.ofList value)
        | value => (·, none) <$> s.give flag (String.ofList value)
      else do
        scanLetters flags (← s.give flag "") rest

def scanOption (flags : List Flag) (s : Scan) (arg : String) : Except Stop (Scan × Option Flag) :=
  match arg.toList with
  | '-' :: '-' :: text =>
    let (name, value) := splitValue text
    match flags.find? (·.long == String.ofList name), value with
    | none, _ => .error .misuse
    | some flag, none =>
      if flag.value.isSome then .ok (s, some flag) else (·, none) <$> s.give flag ""
    | some flag, some value =>
      if flag.value.isSome then (·, none) <$> s.give flag (String.ofList value)
      else .error .misuse
  | _ :: letters => scanLetters flags s letters
  | [] => .ok (s, none)

/-- Reads the arguments of a command. Each is checked when it is read, so the first that is
wrong or asks for help decides. -/
def scan (g : Grammar) (s : Scan) : List String → Except Stop Scan
  | [] => .ok s
  | arg :: args =>
    if arg = "--" then args.foldlM (·.giveOperand g ·) s
    else if looksLikeOption arg then
      match scanOption g.flags s arg with
      | .error stop => .error stop
      | .ok (s, none) => scan g s args
      | .ok (s, some flag) =>
        match args with
        | value :: args =>
          if looksLikeOption value then .error .misuse
          else
            match s.give flag value with
            | .error stop => .error stop
            | .ok s => scan g s args
        | [] => .error .misuse
    else
      match s.giveOperand g arg with
      | .error stop => .error stop
      | .ok s => scan g s args

structure CompileOptions where
  input : String
  output : Option String
  level : UInt8
  passes : Option (List String)
  printIr : Bool
deriving DecidableEq, Repr

structure DemoOptions where
  name : String
  emitAst : Bool
  level : UInt8
deriving DecidableEq, Repr

inductive Command where
  | compile (options : CompileOptions)
  | demo (options : DemoOptions)
  | passes
deriving DecidableEq, Repr

def helpFlag : Flag := { long := "help", short := some 'h' }

def verboseFlag : Flag := { long := "verbose", short := some 'v' }

def versionFlag : Flag := { long := "version", short := some 'V' }

def levelFlag : Flag := { long := "opt-level", short := some 'O', value := some .level }

def commonFlags : List Flag := [helpFlag, verboseFlag]

def Scan.level (s : Scan) : UInt8 := ((s.value? "opt-level").bind level?).getD 1

def compileGrammar : Grammar where
  flags := commonFlags ++ [levelFlag,
    { long := "output", short := some 'o', value := some .file },
    { long := "passes", short := none, value := some .text, repeatable := true },
    { long := "print-ir", short := none }]
  operand := some .file

def compileCommand (args : List String) : Except Stop Command := do
  let s ← scan compileGrammar {} args
  let passes := if s.has "passes" then
      some ((s.values "passes").flatMap fun names => names.splitOn ",")
    else none
  match s.operand with
  | some input =>
    let output := s.value? "output"
    let printIr := s.has "print-ir"
    return .compile { input, output, level := s.level, passes, printIr }
  | none => throw .misuse

def demoGrammar : Grammar where
  flags := commonFlags ++ [levelFlag, { long := "emit-ast", short := none }]
  operand := some .text

def demoCommand (args : List String) : Except Stop Command := do
  let s ← scan demoGrammar {} args
  return .demo
    { name := s.operand.getD "add", emitAst := s.has "emit-ast", level := s.level }

def passesCommand (args : List String) : Except Stop Command := do
  let _ ← scan { flags := commonFlags } {} args
  return .passes

def helpCommand : List String → Stop
  | [] => .help
  | [name] => if name ∈ ["compile", "demo", "passes", "help"] then .help else .misuse
  | _ => .misuse

/-- The command that arguments ask for, with the options in front of its name, which hold
for all commands. -/
def commandAfter (s : Scan) : List String → Except Stop Command
  | [] => .error .misuse
  | arg :: args =>
    if arg ≠ "--" ∧ looksLikeOption arg then
      match scanOption [helpFlag, verboseFlag, versionFlag] s arg with
      | .error stop => .error stop
      | .ok (s, _) => commandAfter s args
    else
      match arg with
      | "compile" => compileCommand args
      | "demo" => demoCommand args
      | "passes" => passesCommand args
      | "help" => .error (helpCommand args)
      | _ => .error .misuse

def command (args : List String) : Except Stop Command := commandAfter {} args

end Midend.Cli
