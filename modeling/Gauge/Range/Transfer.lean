import Gauge.Range
import Gauge.Syntax

/-!
# Ranges of operations

What the range of an operation's result is, given those of its operands.  The bounds are computed
over all integers and kept where they are certain to be those of the result.  Unsigned results wrap
around; a signed result that may leave its type is not bounded at all.

An operation that is certain to fail when the program runs is a `Violation`.
-/

namespace Gauge

/-- An operation that fails whenever it is run. -/
inductive Violation where
  | divisionByZero
  | moduloByZero
deriving DecidableEq

def Violation.message : Violation → String
  | .divisionByZero => "division by zero"
  | .moduloByZero => "modulo by zero"

/-- The result of a range operation: a range, a violation, or a fault. -/
abbrev Transferred := Except Fault (Except Violation Range)

namespace Range

/-- The bounds of an operand. -/
def operandBounds (r : Range) : Except Fault (Int × Int) :=
  match r.bounds? with
  | some b => .ok b
  | none => .error (.operandNotInteger r.text)

/-- The bounds of a result's type. -/
def resultBounds (t : Ty) : Except Fault (Int × Int) :=
  match t.bounds? with
  | some b => .ok b
  | none => .error (.resultNotInteger t.text)

/-- The given bounds if all of them lie in the type, and every value of the type otherwise. -/
def exactOrFull (t : Ty) (lo hi : Int) : Except Fault Range := do
  let (low, high) ← resultBounds t
  if low ≤ lo ∧ hi ≤ high then integer t lo hi else integer t low high

/-- The given bounds modulo the size of the type, if both lie in one turn of it. -/
def wrapped (t : Ty) (lo hi : Int) : Except Fault Range := do
  let (low, high) ← resultBounds t
  let modulus := high + 1
  if lo / modulus = hi / modulus then integer t (lo % modulus) (hi % modulus)
  else integer t low high

/-- Signed results must not overflow, unsigned results wrap. -/
def arithmetic (t : Ty) (lo hi : Int) : Except Fault Range :=
  if t.isSigned then exactOrFull t lo hi else wrapped t lo hi

def add (t : Ty) (a b : Range) : Except Fault Range := do
  let (aMin, aMax) ← a.operandBounds
  let (bMin, bMax) ← b.operandBounds
  arithmetic t (aMin + bMin) (aMax + bMax)

def subtract (t : Ty) (a b : Range) : Except Fault Range := do
  let (aMin, aMax) ← a.operandBounds
  let (bMin, bMax) ← b.operandBounds
  arithmetic t (aMin - bMax) (aMax - bMin)

/-- The least and the greatest of some numbers, starting from the ends of the 128-bit integers. -/
def extremes (ns : List Int) : Int × Int :=
  (ns.foldl min (Int.pow 2 127 - 1), ns.foldl max (-Int.pow 2 127))

def multiply (t : Ty) (a b : Range) : Except Fault Range := do
  let (aMin, aMax) ← a.operandBounds
  let (bMin, bMax) ← b.operandBounds
  let p := aMin * bMin
  let q := aMin * bMax
  let r := aMax * bMin
  let s := aMax * bMax
  exactOrFull t (min (min p q) (min r s)) (max (max p q) (max r s))

/-- The quotients at the corners of each sign of the divisor. -/
def quotients (aMin aMax bMin bMax : Int) : List Int :=
  let negative := if bMin ≤ -1 then [bMin, min bMax (-1)] else []
  let positive := if 1 ≤ bMax then [max bMin 1, bMax] else []
  (negative ++ positive).flatMap fun d => [aMin.tdiv d, aMax.tdiv d]

/-- Division rounds toward zero. -/
def divide (t : Ty) (a b : Range) : Transferred := do
  let (aMin, aMax) ← a.operandBounds
  let (bMin, bMax) ← b.operandBounds
  if b.literalValue? = some 0 then return .error .divisionByZero
  if !t.isSigned then
    if bMax = 0 then throw .zeroDivisor
    return .ok (← integer t (aMin.tdiv bMax) (aMax.tdiv (max bMin 1)))
  let (low, high) ← resultBounds t
  -- the least value divided by -1 leaves the type
  if aMin = low ∧ bMin ≤ -1 ∧ -1 ≤ bMax then return .ok (← integer t low high)
  let (lo, hi) := extremes (quotients aMin aMax bMin bMax)
  return .ok (← exactOrFull t lo hi)

/-- The remainder has the sign of the dividend and is smaller than the divisor. -/
def modulo (t : Ty) (a b : Range) : Transferred := do
  let (aMin, aMax) ← a.operandBounds
  let (bMin, bMax) ← b.operandBounds
  if b.literalValue? = some 0 then return .error .moduloByZero
  if !t.isSigned then
    if aMax < bMin then return .ok (← integer t aMin aMax)
    return .ok (← integer t 0 (min aMax (bMax - 1)))
  let bound : Int := max (bMin.natAbs : Int) bMax.natAbs - 1
  let lo := if aMin < 0 then max aMin (-bound) else 0
  let hi := if 0 < aMax then min aMax bound else 0
  return .ok (← exactOrFull t lo hi)

def negate (t : Ty) (a : Range) : Except Fault Range := do
  let (aMin, aMax) ← a.operandBounds
  exactOrFull t (-aMax) (-aMin)

def not (a : Range) : Range := .bools (a.bools?.getD .any).not

def equals (a b : Range) : Except Fault Range := do
  let (aMin, aMax) ← a.operandBounds
  let (bMin, bMax) ← b.operandBounds
  let disjoint := decide (aMax < bMin) || decide (bMax < aMin)
  let oneValue := decide (aMin = aMax) && decide (bMin = bMax) && decide (aMin = bMin)
  return .bools ⟨!oneValue, !disjoint⟩

def less (a b : Range) : Except Fault Range := do
  let (aMin, aMax) ← a.operandBounds
  let (bMin, bMax) ← b.operandBounds
  return .bools ⟨decide (bMin ≤ aMax), decide (aMin < bMax)⟩

def lessEquals (a b : Range) : Except Fault Range := do
  let (aMin, aMax) ← a.operandBounds
  let (bMin, bMax) ← b.operandBounds
  return .bools ⟨decide (bMin < aMax), decide (aMin ≤ bMax)⟩

end Range

/-- The operations that ranges are computed for. -/
inductive Transfer where
  | binary (op : BinaryOp)
  | negate
  | not
deriving DecidableEq

namespace Transfer

/-- The operand at a place. -/
def operand (operands : List Range) (i : Nat) : Except Fault Range :=
  match operands[i]? with
  | some r => .ok r
  | none => .error (.missingOperand operands.length i)

/-- The range of a binary operation's result. -/
def binaryRange (t : Ty) (a b : Range) : BinaryOp → Transferred
  | .add => (a.add t b).map .ok
  | .subtract => (a.subtract t b).map .ok
  | .multiply => (a.multiply t b).map .ok
  | .divide => a.divide t b
  | .modulo => a.modulo t b
  | .equals => (a.equals b).map .ok
  | .notEquals => (a.equals b).map fun r => .ok r.not
  | .less => (a.less b).map .ok
  | .lessEquals => (a.lessEquals b).map .ok
  | .greater => (b.less a).map .ok
  | .greaterEquals => (b.lessEquals a).map .ok

/-- The two operands of a binary operation.  `>` and `>=` look at the right one first. -/
def operandPair (operands : List Range) : BinaryOp → Except Fault (Range × Range)
  | .greater | .greaterEquals => do
    let b ← operand operands 1
    let a ← operand operands 0
    return (a, b)
  | _ => do
    let a ← operand operands 0
    let _ ← a.operandBounds
    let b ← operand operands 1
    return (a, b)

/-- The range of an operation's result of type `t`. -/
def apply (f : Transfer) (t : Ty) (operands : List Range) : Transferred := do
  match f with
  | .binary op =>
    let (a, b) ← operandPair operands op
    binaryRange t a b op
  | .negate => ((← operand operands 0).negate t).map .ok
  | .not => return .ok (← operand operands 0).not

end Transfer

end Gauge
