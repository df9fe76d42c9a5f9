import Gauge.Code.Listing
import Gauge.Path
import Gauge.Syntax.Parser
import Gauge.Token.Lexer

/-!
# Compilation

From the text of a program to its listing.
-/

namespace Gauge

/-- Checks a program; gives its module and the scope it was checked in. -/
def analyze (limits : Limits) (name file source : String) : Except Failure (Module × Scope) := do
  let tokens ← Failure.ofError (tokenize file source)
  let tree ← parse file tokens
  (Module.build (Scope.standard limits).push name file tree).outcome

/-- The name of the module in a file. -/
def moduleName (file : String) : String := ((Path.fileName? file).map Path.stem).getD file

/-- The listing of the program in a file. -/
def compile (limits : Limits) (file source : String) : Except Failure String := do
  let (m, scope) ← analyze limits (moduleName file) file source
  Failure.ofFault (m.listing scope.structs).outcome

end Gauge
