/-! Files that commands read and write. Commands reach them through two operations, so
they run on the files of a machine as well as on files that are held in memory. -/
namespace Midend.Cli

inductive FileError where
  | notFound
  | notDirectory
  | isDirectory
  | nameTooLong
  | other (text : String)
deriving DecidableEq, Repr

def FileError.message : FileError → String
  | .notFound => "No such file or directory (os error 2)"
  | .notDirectory => "Not a directory (os error 20)"
  | .isDirectory => "Is a directory (os error 21)"
  | .nameTooLong => "File name too long (os error 36)"
  | .other text => text

structure FileSystem (m : Type → Type) where
  read : String → m (Except FileError String)
  write : String → String → m (Except FileError Unit)

inductive Base where
  | root
  | above (levels : Nat)
deriving DecidableEq, Repr

structure Place where
  base : Base
  names : List String
deriving DecidableEq, Repr

namespace Place

def null : Place := ⟨.root, ["dev", "null"]⟩

def parent (p : Place) : Place :=
  match p.names, p.base with
  | [], .above levels => ⟨.above (levels + 1), []⟩
  | names, base => ⟨base, names.dropLast⟩

end Place

structure Folder where
  files : List (Place × String) := []
deriving DecidableEq, Repr

namespace Folder

def systemDirectories : List String := ["bin", "dev", "etc", "proc", "tmp", "usr", "var"]

def text? (f : Folder) (p : Place) : Option String :=
  if p = .null then some "" else f.files.lookup p

def isDirectory (f : Folder) (p : Place) : Bool :=
  p.names.isEmpty || (p.base = .root && systemDirectories.any (p.names = [·])) ||
    f.files.any fun (q, _) =>
      q.base = p.base && p.names.isPrefixOf q.names && p.names.length < q.names.length

def checkDirectory (f : Folder) (p : Place) : Except FileError Unit :=
  if f.isDirectory p then .ok ()
  else if (f.text? p).isSome then .error .notDirectory
  else .error .notFound

def nameLimit : Nat := 255

def pathLimit : Nat := 4096

def enter (f : Folder) (p : Place) (name : String) : Except FileError Place := do
  f.checkDirectory p
  if name = "" ∨ name = "." then return p
  if name = ".." then return p.parent
  if nameLimit < name.utf8ByteSize then throw .nameTooLong
  return { p with names := p.names ++ [name] }

def splitPath (path : String) : Place × List String :=
  match path.splitOn "/" with
  | "" :: names => (⟨.root, []⟩, names)
  | names => (⟨.above 0, []⟩, names)

def checkPath (path : String) : Except FileError Unit :=
  if path = "" then .error .notFound
  else if pathLimit ≤ path.utf8ByteSize then .error .nameTooLong
  else .ok ()

def find (f : Folder) (path : String) : Except FileError Place := do
  checkPath path
  let (start, names) := splitPath path
  names.foldlM f.enter start

def read (f : Folder) (path : String) : Except FileError String := do
  let p ← f.find path
  if f.isDirectory p then throw .isDirectory
  match f.text? p with
  | some text => return text
  | none => throw .notFound

/-- The directory that has the last name of a path, if the path ends in a slash and so
asks for a directory of that name. -/
def directoryOf? (f : Folder) (path : String) : Except FileError (Option Place) := do
  let (start, names) := splitPath path
  let bare := (names.reverse.dropWhile (· = "")).reverse
  if bare.length < names.length ∧ bare.getLast?.any (· ∉ [".", ".."]) then
    return some (← bare.dropLast.foldlM f.enter start)
  else return none

def write (f : Folder) (path text : String) : Except FileError Folder := do
  checkPath path
  if let some directory ← f.directoryOf? path then
    f.checkDirectory directory
    throw .isDirectory
  let p ← f.find path
  if f.isDirectory p then throw .isDirectory
  if p = .null then return f
  return ⟨(p, text) :: f.files.filter (·.1 ≠ p)⟩

def system : FileSystem (StateM Folder) where
  read path := do return (← get).read path
  write path text := do
    match (← get).write path text with
    | .ok f =>
      set f
      return .ok ()
    | .error e => return .error e

end Folder
end Midend.Cli
