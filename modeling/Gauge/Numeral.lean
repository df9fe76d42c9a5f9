/-!
# Numerals

Reading an unsigned decimal number of bounded size, as the command line and the weights write it.
-/

namespace Gauge

/-- Why a text is not a number. -/
inductive NumeralError where
  | empty
  | invalidDigit
  | tooLarge
deriving DecidableEq

def NumeralError.message : NumeralError → String
  | .empty => "cannot parse integer from empty string"
  | .invalidDigit => "invalid digit found in string"
  | .tooLarge => "number too large to fit in target type"

/-- The value of a decimal digit. -/
def digitValue? (c : Char) : Option Nat :=
  if '0' ≤ c ∧ c ≤ '9' then some (c.toNat - '0'.toNat) else none

/-- Reads digits onto `value`, from left to right, and stops at the first character that is no
digit or takes the value past `largest`. -/
def readDigits (largest : Nat) (value : Nat) : List Char → Except NumeralError Nat
  | [] => .ok value
  | c :: cs =>
    match digitValue? c with
    | none => .error .invalidDigit
    | some d =>
      if largest < value * 10 + d then .error .tooLarge
      else readDigits largest (value * 10 + d) cs

/-- Reads a number of at most `largest`: decimal digits, after an optional plus sign. -/
def readNumeral (largest : Nat) : List Char → Except NumeralError Nat
  | [] => .error .empty
  | ['+'] => .error .invalidDigit
  | '+' :: cs => readDigits largest 0 cs
  | cs => readDigits largest 0 cs

end Gauge
