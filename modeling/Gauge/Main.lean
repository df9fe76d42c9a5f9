import Gauge.Command

/-!
# The program

Runs the command line on the files of the system.
-/

namespace Gauge

/-- The fault that an error of the system stands for. -/
def FileFault.ofError : IO.Error → FileFault
  | .noFileOrDirectory _ _ _ => .missing
  | .inappropriateType _ 20 _ => .notDirectory
  | .inappropriateType _ 21 _ => .isDirectory
  | .invalidArgument _ 36 _ => .nameTooLong
  | e => .other (toString e)

/-- Runs an action on files; an error of the system is the answer, not an exception. -/
def guarded {α : Type} (action : IO α) : IO (Except FileFault α) :=
  try
    return .ok (← action)
  catch e =>
    return .error (.ofError e)

/-- The files of the system. -/
def FileAccess.system : FileAccess IO where
  read path := do
    match ← guarded (IO.FS.readBinFile path) with
    | .error fault => return .error fault
    | .ok content =>
      match String.fromUTF8? content with
      | some text => return .ok text
      | none => return .error .notText
  write path text := guarded (IO.FS.writeFile path text)

end Gauge

/-- Compiles the program that the command line names. -/
def main (words : List String) : IO UInt32 := do
  let outcome ← Gauge.run Gauge.FileAccess.system words
  IO.print outcome.stdout
  IO.eprint outcome.stderr
  return outcome.exit.toUInt32
