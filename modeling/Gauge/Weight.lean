import Gauge.Numeral
import Gauge.Text.Quoted

/-!
# Weights

The price of a sequence of conversions: how many steps it takes and what they cost.  Fewer steps
win over cheaper ones, and sums stop at the largest 32-bit number.
-/

namespace Gauge

/-- The price of a sequence of conversions. -/
structure Weight where
  length : UInt32
  cost : UInt32
deriving DecidableEq

/-- Addition that stops at the largest number. -/
def saturatingAdd (a b : UInt32) : UInt32 :=
  if a.toNat + b.toNat < UInt32.size then a + b else UInt32.ofNat (UInt32.size - 1)

theorem toNat_saturatingAdd (a b : UInt32) :
    (saturatingAdd a b).toNat = min (a.toNat + b.toNat) (UInt32.size - 1) := by
  unfold saturatingAdd
  split
  · rw [UInt32.toNat_add]
    simp only [UInt32.size] at *
    omega
  · have : (UInt32.ofNat (UInt32.size - 1)).toNat = UInt32.size - 1 := by decide
    omega

theorem saturatingAdd_comm (a b : UInt32) : saturatingAdd a b = saturatingAdd b a := by
  apply UInt32.toNat_inj.mp
  simp only [toNat_saturatingAdd, Nat.add_comm]

theorem saturatingAdd_assoc (a b c : UInt32) :
    saturatingAdd (saturatingAdd a b) c = saturatingAdd a (saturatingAdd b c) := by
  apply UInt32.toNat_inj.mp
  simp only [toNat_saturatingAdd]
  omega

@[simp] theorem zero_saturatingAdd (a : UInt32) : saturatingAdd 0 a = a := by
  apply UInt32.toNat_inj.mp
  have := a.toNat_lt
  simp only [toNat_saturatingAdd, UInt32.size, UInt32.toNat_zero]
  omega

namespace Weight

def zero : Weight := ⟨0, 0⟩

/-- The heaviest weight. -/
def largest : Weight := ⟨4294967295, 4294967295⟩

/-- One conversion of the given cost. -/
def step (cost : UInt32) : Weight := ⟨1, cost⟩

/-- Lengths and costs add up apart. -/
def add (a b : Weight) : Weight :=
  ⟨saturatingAdd a.length b.length, saturatingAdd a.cost b.cost⟩

instance : Add Weight := ⟨add⟩

/-- Weights compare by length, then by cost. -/
def compare (a b : Weight) : Ordering :=
  (Ord.compare a.length b.length).then (Ord.compare a.cost b.cost)

instance : Ord Weight := ⟨compare⟩

/-- Strictly lighter. -/
def lt (a b : Weight) : Bool :=
  decide (a.length < b.length) || (decide (a.length = b.length) && decide (a.cost < b.cost))

/-- At most as heavy. -/
def le (a b : Weight) : Bool := !b.lt a

theorem add_comm (a b : Weight) : a + b = b + a := by
  show add a b = add b a
  simp only [add, saturatingAdd_comm]

theorem add_assoc (a b c : Weight) : a + b + c = a + (b + c) := by
  show add (add a b) c = add a (add b c)
  simp only [add, saturatingAdd_assoc]

@[simp] theorem zero_add (a : Weight) : zero + a = a := by
  show add zero a = a
  simp [add, zero]

@[simp] theorem add_zero (a : Weight) : a + zero = a := by
  rw [add_comm, zero_add]

theorem lt_iff (a b : Weight) :
    a.lt b = true ↔ a.length < b.length ∨ (a.length = b.length ∧ a.cost < b.cost) := by
  simp [lt]

theorem le_iff (a b : Weight) :
    a.le b = true ↔ a.length < b.length ∨ (a.length = b.length ∧ a.cost ≤ b.cost) := by
  simp only [le, lt, UInt32.lt_iff_toNat_lt, UInt32.le_iff_toNat_le, ← UInt32.toNat_inj]
  grind

/-- Written as length, colon, cost. -/
def text (w : Weight) : String :=
  toString w.length.toNat ++ ":" ++ toString w.cost.toNat

/-- What is wrong with the text of a weight. -/
inductive ReadError where
  | noColon (text : String)
  | badLength (text : String) (error : NumeralError)
  | badCost (text : String) (error : NumeralError)
deriving DecidableEq

def ReadError.message : ReadError → String
  | .noColon s => "expected <length>:<cost>, found " ++ quoted s
  | .badLength s e => "invalid length " ++ quoted s ++ ": " ++ e.message
  | .badCost s e => "invalid cost " ++ quoted s ++ ": " ++ e.message

/-- Reads one half of a weight, with white space around it. -/
def readHalf (cs : List Char) : Except NumeralError UInt32 :=
  (readNumeral (UInt32.size - 1) (trim cs)).map UInt32.ofNat

/-- Reads a weight: two numbers, parted by the first colon of the text. -/
def read (s : String) : Except ReadError Weight :=
  let left := s.toList.takeWhile (· ≠ ':')
  match s.toList.dropWhile (· ≠ ':') with
  | [] => .error (.noColon s)
  | _ :: right =>
    match readHalf left with
    | .error e => .error (.badLength (String.ofList left) e)
    | .ok length =>
      match readHalf right with
      | .error e => .error (.badCost (String.ofList right) e)
      | .ok cost => .ok ⟨length, cost⟩

end Weight

end Gauge
