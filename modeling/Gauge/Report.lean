import Gauge.Error
import Gauge.Text.Line

/-!
# Reports

The lines shown to a person for an error: what it is, the file, and the source line with a caret
under the place.
-/

namespace Gauge

/-- The blanks a line may be indented by. -/
def isIndent (c : Char) : Bool := c = ' ' || c = '\t'

/-- A bar at the right end of a margin of `n` columns. -/
def margin (n : Nat) : String := String.ofList (List.replicate (n - 1) ' ') ++ "|"

/-- The source line and the caret line below it.  The indentation is not shown, and the caret
never stands left of what is. -/
def Line.caretLines (l : Line) : List String :=
  let number := toString l.number
  let indent := l.text.takeWhile isIndent
  let shown := String.ofList (trimRight (l.text.dropWhile isIndent))
  let dashes := String.ofList (List.replicate (l.column - indent.length) '-')
  [margin (number.length + 2),
   number ++ " | " ++ shown,
   margin (number.length + 2) ++ " " ++ dashes ++ "^"]

/-- The head line of a report. -/
def Cause.headline (c : Cause) : String :=
  match c.tip? with
  | none => "Error: " ++ c.name
  | some tip => "Error: " ++ c.name ++ " (" ++ tip ++ ")"

/-- The report of an error in `source`, which was read from `file`. -/
def Error.report (e : Error) (source : String) (file : String) : String :=
  let place := match lineAt source.toList e.offset with
    | none => []
    | some l => l.caretLines
  String.join (([e.cause.headline, "-> " ++ file] ++ place).map (· ++ "\n"))

end Gauge
