import Gauge.Compile
import Gauge.Files
import Gauge.Options
import Gauge.Report

/-!
# The command line

Compiles the file named by the options and writes the listing, or reports what is wrong.
-/

namespace Gauge

/-- Why a file was not compiled. -/
inductive CompileFailure where
  | unreadable (path : String) (fault : FileFault)
  | rejected (failure : Failure)

/-- The name that a program read from a path goes by. -/
def fileLabel (path : String) : String := (Path.fileName? path).getD path

/-- The error that stands for a file that cannot be read. -/
def unreadableError (path : String) (fault : FileFault) : Error :=
  ⟨.io (path ++ ": " ++ fault.message), .null⟩

/-- Compiles the program at a path. -/
def compileFile {m : Type → Type} [Monad m] (files : FileAccess m) (limits : Limits)
    (path : String) : m (Except CompileFailure String) := do
  match ← files.read path with
  | .error fault => return .error (.unreadable path fault)
  | .ok source =>
    match compile limits (fileLabel path) source with
    | .ok listing => return .ok listing
    | .error failure => return .error (.rejected failure)

/-- What a run of the command line leaves. -/
structure Outcome where
  exit : UInt8
  stdout : String
  stderr : String
deriving DecidableEq

namespace Outcome

/-- A run that succeeds. -/
def done (stdout : String) : Outcome := ⟨0, stdout, ""⟩

/-- A run that fails. -/
def failed (stderr : String) : Outcome := ⟨1, "", stderr⟩

/-- A run whose command line is not understood; the usage follows, unless it was asked for. -/
def misused (e : Options.ReadError) : Outcome :=
  let usage := if e.message = Options.usage then "" else Options.usage ++ "\n"
  ⟨2, "", e.message ++ "\n" ++ usage⟩

end Outcome

/-- What is shown for a file that was not compiled. -/
def CompileFailure.report (path source : String) : CompileFailure → String
  | .unreadable missing fault => (unreadableError missing fault).report source path
  | .rejected (.error e) => e.report source path
  | .rejected (.fault f) => f.message ++ "\n"

/-- Runs the command line. -/
def run {m : Type → Type} [Monad m] (files : FileAccess m) (words : List String) : m Outcome := do
  match Options.read words with
  | .error e => return .misused e
  | .ok options =>
    match ← compileFile files options.limits options.input with
    | .error failure =>
      let source := match ← files.read options.input with
        | .ok source => source
        | .error _ => ""
      return .failed (failure.report options.input source)
    | .ok listing =>
      let shown := if options.print || options.output.isNone then listing else ""
      match options.output with
      | none => return .done shown
      | some path =>
        match ← files.write path listing with
        | .ok () => return .done shown
        | .error fault =>
          return .failed ("Error: cannot write " ++ path ++ ": " ++ fault.message ++ "\n")

end Gauge
