import Gauge.Proofs.Success
import Mathlib.Algebra.Order.Ring.Int

/-!
# Proofs — values and the ranges they lie in

What scalar values are when a program runs: numbers, where booleans are zero and one.  `Ty.Admits`
says which numbers are values of a type, `Range.Holds` which of them a range allows, and
`BinaryOp.run?`, `UnaryOp.run?` and `Ty.wrap?` what operators and integer conversions do to them.
Unsigned arithmetic wraps around; a signed result that its type cannot hold, and division by zero,
give no value.

Ranges keep their bounds in 64-bit words, so all of it is about types of at most 64 bits
(`Ty.Word`).
-/

namespace Gauge

/-! ### Values of scalar types -/

/-- `v` is a value of the scalar type. -/
def Scalar.Admits (s : Scalar) (v : Int) : Prop :=
  match s.bounds? with
  | some (low, high) => low ≤ v ∧ v ≤ high
  | none => s.kind = .bool ∧ (v = 0 ∨ v = 1)

/-- `v` is a value of the type, which is then a scalar one. -/
def Ty.Admits (t : Ty) (v : Int) : Prop := ∃ s, t.scalar? = some s ∧ s.Admits v

/-- A type whose values have at most 64 bits, if it is a scalar one; a sign takes one of them. -/
def Ty.Word (t : Ty) : Prop :=
  ∀ s, t.scalar? = some s → s.size.toNat ≤ 8 ∧ (s.kind = .signedInt → 0 < s.size.toNat)

/-- The value that stands for `v` in an integer type: modulo the size of the type. -/
def Ty.wrap? (t : Ty) (v : Int) : Option Int :=
  match t.scalar? with
  | none => none
  | some s =>
    match s.kind with
    | .unsignedInt | .char => some (v % 2 ^ (s.size.toNat * 8))
    | .signedInt => some (v.bmod (2 ^ (s.size.toNat * 8)))
    | .void | .bool => none

/-- The value of an arithmetic operation whose exact result is `z`. -/
def Ty.result? (t : Ty) (z : Int) : Option Int :=
  match t.bounds? with
  | none => none
  | some (low, high) =>
    if t.isSigned then if low ≤ z ∧ z ≤ high then some z else none
    else some (z % (high + 1))

/-- The number that stands for a boolean. -/
def truth (b : Bool) : Int := if b then 1 else 0

/-- The value of a binary operation with a result of type `t`. -/
def BinaryOp.run? (t : Ty) (a b : Int) : BinaryOp → Option Int
  | .add => t.result? (a + b)
  | .subtract => t.result? (a - b)
  | .multiply => t.result? (a * b)
  | .divide => if b = 0 then none else t.result? (a.tdiv b)
  | .modulo => if b = 0 then none else t.result? (a.tmod b)
  | .equals => some (truth (decide (a = b)))
  | .notEquals => some (truth (decide (a ≠ b)))
  | .less => some (truth (decide (a < b)))
  | .lessEquals => some (truth (decide (a ≤ b)))
  | .greater => some (truth (decide (b < a)))
  | .greaterEquals => some (truth (decide (b ≤ a)))

/-- The value of a unary operation with a result of type `t`. -/
def UnaryOp.run? (t : Ty) (a : Int) : UnaryOp → Option Int
  | .negate => t.result? (-a)
  | .not => if a = 0 then some 1 else if a = 1 then some 0 else none

/-! ### Values in ranges -/

/-- `v` is one of the booleans of the set. -/
def Bools.Holds (s : Bools) (v : Int) : Prop :=
  (v = 0 ∧ s.falses = true) ∨ (v = 1 ∧ s.trues = true)

/-- `v` lies in the range. -/
def Range.Holds : Range → Int → Prop
  | .unsigned lo hi, v => (lo : Int) ≤ v ∧ v ≤ hi
  | .signed lo hi, v => lo ≤ v ∧ v ≤ hi
  | .bools s, v => s.Holds v
  | .pointer _ _, _ | .array _, _ | .void, _ => False

namespace Bools

variable {v : Int} {s : Bools}

theorem holds_any (h : v = 0 ∨ v = 1) : any.Holds v := by
  rcases h with rfl | rfl
  · exact .inl ⟨rfl, rfl⟩
  · exact .inr ⟨rfl, rfl⟩

theorem Holds.zero_or_one (h : s.Holds v) : v = 0 ∨ v = 1 := by
  rcases h with ⟨rfl, -⟩ | ⟨rfl, -⟩
  · exact .inl rfl
  · exact .inr rfl

theorem holds_truth {b : Bool} : s.Holds (truth b) ↔ (if b then s.trues else s.falses) = true := by
  cases b <;> simp [Holds, truth]

theorem holds_exactly (b : Bool) : (exactly b).Holds (truth b) := by
  cases b <;> simp [Holds, truth, exactly]

/-- `&&` gives `false` where the left side does. -/
theorem Holds.and_false (t : Bools) (h : s.Holds 0) : (s.and t).Holds 0 := by
  have hs : s.falses = true := by simpa [Holds] using h
  unfold and
  split <;> simp [Holds, hs, exactly]

/-- `&&` gives what the right side does where the left one holds. -/
theorem Holds.and_true {s t : Bools} (hs : s.Holds 1) (ht : t.Holds v) : (s.and t).Holds v := by
  have hs : s.trues = true := by simpa [Holds] using hs
  rw [and, if_pos hs]
  rcases ht with ⟨rfl, h⟩ | ⟨rfl, h⟩
  · exact .inl ⟨rfl, by simp [h]⟩
  · exact .inr ⟨rfl, h⟩

/-- `||` gives `true` where the left side does. -/
theorem Holds.or_true (t : Bools) (h : s.Holds 1) : (s.or t).Holds 1 := by
  have hs : s.trues = true := by simpa [Holds] using h
  unfold or
  split <;> simp [Holds, hs, exactly]

/-- `||` gives what the right side does where the left one fails. -/
theorem Holds.or_false {s t : Bools} (hs : s.Holds 0) (ht : t.Holds v) : (s.or t).Holds v := by
  have hs : s.falses = true := by simpa [Holds] using hs
  rw [or, if_pos hs]
  rcases ht with ⟨rfl, h⟩ | ⟨rfl, h⟩
  · exact .inl ⟨rfl, h⟩
  · exact .inr ⟨rfl, by simp [h]⟩

end Bools

namespace Range

variable {r : Range}

/-- A value of a range lies between its bounds. -/
theorem Holds.bounds {v : Int} (h : r.Holds v) :
    ∃ lo hi, r.bounds? = some (lo, hi) ∧ lo ≤ v ∧ v ≤ hi := by
  cases r with
  | unsigned lo hi | signed lo hi => exact ⟨lo, hi, rfl, h⟩
  | bools s =>
    refine ⟨_, _, rfl, ?_⟩
    rcases h with ⟨rfl, h⟩ | ⟨rfl, h⟩
    · simp only [h, if_true]
      split <;> omega
    · simp only [h, if_true]
      split <;> omega
  | pointer _ _ | array _ | void => exact h.elim

/-- The set of booleans that an operand is taken for holds its value. -/
theorem Holds.bools {v : Int} (h : r.Holds v) (hv : v = 0 ∨ v = 1) :
    (r.bools?.getD .any).Holds v := by
  cases r with
  | bools s => exact h
  | unsigned _ _ | signed _ _ => exact Bools.holds_any hv
  | pointer _ _ | array _ | void => exact h.elim

/-- The value of a range that is a single number. -/
theorem Holds.eq_literal {v k : Int} (h : r.Holds v) (hk : r.literalValue? = some k) : v = k := by
  unfold literalValue? at hk
  split at hk
  case isFalse => cases hk
  case isTrue hl =>
    cases r with
    | unsigned lo hi | signed lo hi =>
      have e : lo = hi := by simpa [isLiteral] using hl
      simp only [Option.some.injEq] at hk
      simp only [Holds] at h
      omega
    | bools s =>
      have e : s.falses ≠ s.trues := by simpa [isLiteral, Bools.isLiteral] using hl
      simp only [Option.some.injEq] at hk
      rcases h with ⟨rfl, h⟩ | ⟨rfl, h⟩ <;> simp_all
    | pointer _ _ | array _ | void => cases hk

end Range

end Gauge
