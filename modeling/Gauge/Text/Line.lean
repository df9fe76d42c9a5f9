import Gauge.Text.CharClass

/-!
# Lines of a text

`lineAt` finds the line that holds a byte offset: its number from one, its text with the newline
that ends it, and the offset inside the line.
-/

namespace Gauge

/-- A line of a text and a place in it. -/
structure Line where
  number : Nat
  text : List Char
  column : Nat
deriving DecidableEq

/-- The lines of a text, each with the newline that ends it; a last line need not have one. -/
def lines : List Char → List (List Char)
  | [] => []
  | c :: cs =>
    if c = '\n' then [c] :: lines cs
    else match lines cs with
      | [] => [[c]]
      | l :: ls => (c :: l) :: ls

/-- Whether the offset belongs to the line that starts at `start`: it lies before the line's end,
or at its end when no newline closes the line. -/
def Line.holds (start offset : Nat) (l : List Char) : Bool :=
  decide (offset < start + width l) ||
    (decide (offset = start + width l) && l.getLast? != some '\n')

/-- The first line that holds the offset; past all of them, an empty line after the last. -/
def lineFrom (offset : Nat) (number start : Nat) : List (List Char) → Line
  | [] => ⟨number, [], 0⟩
  | l :: ls =>
    if Line.holds start offset l then ⟨number, l, offset - start⟩
    else lineFrom offset (number + 1) (start + width l) ls

/-- The line that holds a byte offset of the text; none when the offset lies past its end. -/
def lineAt (source : List Char) (offset : Nat) : Option Line :=
  if width source < offset then none else some (lineFrom offset 1 0 (lines source))

end Gauge
