/-!
# Paths

The names inside a path: its components are parted by slashes, and empty ones and `.` are passed
over.
-/

namespace Gauge

namespace Path

/-- The pieces between the slashes of a path, empty ones too. -/
def pieces : List Char → List (List Char)
  | [] => [[]]
  | c :: cs =>
    if c = '/' then [] :: pieces cs
    else match pieces cs with
      | [] => [[c]]
      | p :: ps => (c :: p) :: ps

/-- The components of a path that name something. -/
def components (path : String) : List String :=
  ((pieces path.toList).filter fun p => p != [] && p != ['.']).map String.ofList

/-- The name of the file that a path leads to, if it ends in one. -/
def fileName? (path : String) : Option String :=
  match (components path).getLast? with
  | some name => if name = ".." then none else some name
  | none => none

/-- A file name without what follows its last dot; a dot at the start does not count. -/
def stem (name : String) : String :=
  let fromEnd := name.toList.reverse
  match fromEnd.dropWhile (· ≠ '.') with
  | [] | ['.'] => name
  | _ :: before => String.ofList before.reverse

end Path

end Gauge
