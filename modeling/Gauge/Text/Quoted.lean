import Gauge.Text.Printable

/-!
# Quoted text

Messages show a piece of program text between double quotes, with the characters that would
disturb the line written as escapes.
-/

namespace Gauge

/-- How one character is written between quotes: short escapes for the common controls, the
quote and the backslash, `\u{…}` for what cannot be shown, and itself otherwise. -/
def escape (c : Char) : List Char :=
  match c with
  | '\x00' => ['\\', '0']
  | '\t' => ['\\', 't']
  | '\r' => ['\\', 'r']
  | '\n' => ['\\', 'n']
  | '\\' => ['\\', '\\']
  | '"' => ['\\', '"']
  | _ => if isPrintable c then [c] else ['\\', 'u', '{'] ++ Nat.toDigits 16 c.toNat ++ ['}']

/-- A text between double quotes. -/
def quoted (s : String) : String :=
  String.ofList (['"'] ++ s.toList.flatMap escape ++ ['"'])

end Gauge
