import Gauge.Path

/-!
# Files

Reading and writing files by path, either through `FileAccess` in any monad or in a tree of files
held in memory, which follows the rules of a file system: a path is walked name by name, each
name but the last must be that of a directory, and neither a name nor a path may be too long.
-/

namespace Gauge

/-- Why a file cannot be read or written. -/
inductive FileFault where
  | missing
  | notDirectory
  | isDirectory
  | nameTooLong
  | nulInPath
  | notText
  | other (message : String)
deriving DecidableEq

def FileFault.message : FileFault → String
  | .missing => "No such file or directory (os error 2)"
  | .notDirectory => "Not a directory (os error 20)"
  | .isDirectory => "Is a directory (os error 21)"
  | .nameTooLong => "File name too long (os error 36)"
  | .nulInPath => "file name contained an unexpected NUL byte"
  | .notText => "stream did not contain valid UTF-8"
  | .other m => m

/-- How a program reads and writes whole files of text. -/
structure FileAccess (m : Type → Type) where
  read : String → m (Except FileFault String)
  write : String → String → m (Except FileFault Unit)

/-- A file or a directory. -/
inductive FileTree where
  | file (content : ByteArray)
  | directory (entries : List (String × FileTree))

namespace FileTree

/-- A directory with nothing in it. -/
def empty : FileTree := .directory []

/-- Puts a tree at a place below this one; directories on the way are made. -/
def insert (t : FileTree) : List String → FileTree → FileTree
  | [], new => new
  | name :: rest, new =>
    let entries := match t with
      | .directory entries => entries
      | .file _ => []
    let child := ((entries.lookup name).getD empty).insert rest new
    .directory ((name, child) :: entries.filter (·.1 ≠ name))

/-- The tree at a place below this one. -/
def find? (t : FileTree) : List String → Option FileTree
  | [] => some t
  | name :: rest =>
    match t with
    | .directory entries =>
      match entries.lookup name with
      | some child => child.find? rest
      | none => none
    | .file _ => none

end FileTree

/-- All files, and the directory that paths start from. -/
structure FileStore where
  root : FileTree
  working : List String

namespace FileStore

/-- A store whose working directory is the given tree; no path gives its name. -/
def ofTree (t : FileTree) : FileStore := ⟨.directory [("", t)], [""]⟩

/-- Whether a component of a path stays where it is or goes up. -/
def isDots (name : String) : Bool := name == "" || name == "." || name == ".."

/-- The bytes that a name may have. -/
def longestName : Nat := 255

/-- The bytes that a path may have. -/
def longestPath : Nat := 4095

/-- Walks one component on from a place. -/
def step (s : FileStore) (place : List String) (name : String) : Except FileFault (List String) :=
  match s.root.find? place with
  | none => .error .missing
  | some (.file _) => .error .notDirectory
  | some (.directory entries) =>
    if name = ".." then .ok place.dropLast
    else if isDots name then .ok place
    else if longestName < name.utf8ByteSize then .error .nameTooLong
    else if (entries.lookup name).isSome then .ok (place ++ [name])
    else .error .missing

/-- Walks along the components of a path; one that begins with a slash starts at the root. -/
def walk (s : FileStore) (absolute : Bool) (names : List String) : Except FileFault (List String) :=
  names.foldlM s.step (if absolute then [] else s.working)

/-- The components of a path with the empty ones; the empty path leads nowhere. -/
def namesOf (path : String) : Except FileFault (List String) :=
  if path.toList.contains '\x00' then .error .nulInPath
  else if path = "" then .error .missing
  else if longestPath < path.utf8ByteSize then .error .nameTooLong
  else .ok ((Path.pieces path.toList).map String.ofList)

def isAbsolute (path : String) : Bool := path.toList.head? == some '/'

/-- The text of a file. -/
def read (s : FileStore) (path : String) : Except FileFault String := do
  match s.root.find? (← s.walk (isAbsolute path) (← namesOf path)) with
  | none => throw .missing
  | some (.directory _) => throw .isDirectory
  | some (.file content) =>
    match String.fromUTF8? content with
    | some text => return text
    | none => throw .notText

/-- The store after a text is written to a file, which need not be there yet.  A path that ends in a
slash or in dots can only be that of a directory. -/
def write (s : FileStore) (path text : String) : Except FileFault FileStore := do
  let names ← namesOf path
  let plain := (names.reverse.dropWhile (· = "")).reverse
  let name := plain.getLast?.getD ""
  let place ← s.walk (isAbsolute path) plain.dropLast
  match s.root.find? place with
  | none => throw .missing
  | some (.file _) => throw .notDirectory
  | some (.directory entries) =>
    if isDots name ∨ plain.length < names.length then throw .isDirectory
    if longestName < name.utf8ByteSize then throw .nameTooLong
    match entries.lookup name with
    | some (.directory _) => throw .isDirectory
    | _ => return { s with root := s.root.insert (place ++ [name]) (.file text.toUTF8) }

end FileStore

/-- Reading and writing in a store held as state. -/
def FileAccess.inMemory : FileAccess (StateM FileStore) where
  read path := do
    let s ← get
    return s.read path
  write path text := do
    match (← get).write path text with
    | .ok s =>
      set s
      return .ok ()
    | .error fault => return .error fault

end Gauge
