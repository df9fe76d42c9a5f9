import Gauge.Proofs.Cast.Reach
import Gauge.Proofs.Range.Operators

/-!
# Proofs — the ranges of operations are tight

An operation has a set of exact results on the numbers of two ranges (`BinaryOp.results`).  Sums,
differences, products, quotients and negations are bounded by the least and the greatest of them,
and their type then takes these bounds as they are, or wraps them around, or gives up
(`Transfer.binary_settled`).  So a range that is not the whole type starts and ends with a result.
Comparisons are exact: they can give a boolean exactly if some operands give it
(`Transfer.comparison_exact`).

Main statement: `Builtin.operators_tight`.
-/

namespace Gauge

/-- The value `v` of the type stands for the exact result `z`: sums and differences without sign are
taken modulo the size of the type, and nothing else changes. -/
def BinaryOp.Settles (t : Ty) (z v : Int) (op : BinaryOp) : Prop :=
  if t.isSigned = false ∧ (op = .add ∨ op = .subtract) then t.wrap? z = some v else v = z

/-- The value is what the operation gives on some numbers of the ranges. -/
def BinaryOp.Reaches (t : Ty) (a b : Range) (v : Int) (op : BinaryOp) : Prop :=
  ∃ z ∈ op.results a b, op.Settles t z v

/-! ### Bounds and the values between them -/

/-- Without sign, a number is converted to its remainder. -/
theorem Ty.wrap_unsigned {t : Ty} {low high : Int} (hb : t.bounds? = some (low, high))
    (hs : t.isSigned = false) (z : Int) : t.wrap? z = some (z % (high + 1)) := by
  obtain ⟨c, ht, hb⟩ := bounds_eq_some hb
  rw [isSigned_eq ht] at hs
  cases hk : c.kind <;> simp [Scalar.bounds?_eq, hk] at hb hs
  · simp [wrap?, ht, hk, ← hb.2]
  · simp [wrap?, ht, hk, ← hb.2]

namespace Range

variable {s : Structs} {t : Ty} {a b r : Range} {low high lo hi v : Int}

theorem integer_eq_ok (h : integer t lo hi = .ok r) :
    ∃ low high, t.bounds? = some (low, high) ∧ low ≤ lo ∧ lo ≤ hi ∧ hi ≤ high ∧
      r = ofBounds t lo hi := by
  unfold integer at h
  split at h
  · cases h
  · next low high hb =>
    split at h
    · next inside =>
      cases h
      exact ⟨low, high, hb, inside.1, inside.2.1, inside.2.2, rfl⟩
    · cases h

theorem integer_bounds (hw : t.Word) (h : integer t lo hi = .ok r) :
    r.bounds? = some (lo, hi) := by
  obtain ⟨low, high, hb, hl, hle, hh, rfl⟩ := integer_eq_ok h
  exact bounds_ofBounds hw hb hl hle hh

/-- The integers of a whole type are its widest range. -/
theorem integer_full (hb : t.bounds? = some (low, high)) (h : integer t low high = .ok r) :
    r = s.rangeOf t := by
  obtain ⟨-, -, -, -, -, -, rfl⟩ := integer_eq_ok h
  obtain ⟨f, c, rfl, hcb⟩ := Ty.eq_scalar_of_bounds hb
  show _ = c.range
  unfold Scalar.range
  cases hk : c.kind with
  | void | bool => simp [Scalar.bounds?_eq, hk] at hcb
  | unsignedInt | signedInt | char =>
    simp only [hcb, Option.getD_some]
    rfl

/-- What a type makes of exact bounds: they are kept, or nothing is known. -/
theorem exactOrFull_cases (hw : t.Word) (h : exactOrFull t lo hi = .ok r) :
    r = s.rangeOf t ∨ r.bounds? = some (lo, hi) := by
  obtain ⟨⟨low, high⟩, hb, h⟩ := bind_eq_ok.mp h
  dsimp only at h
  split at h
  · exact .inr (integer_bounds hw h)
  · exact .inl (integer_full (resultBounds_eq hb) h)

theorem wrapped_cases (hw : t.Word) (hs : t.isSigned = false) (h : wrapped t lo hi = .ok r) :
    r = s.rangeOf t ∨
      ∃ l u, r.bounds? = some (l, u) ∧ t.wrap? lo = some l ∧ t.wrap? hi = some u := by
  obtain ⟨⟨low, high⟩, hb, h⟩ := bind_eq_ok.mp h
  have hb := resultBounds_eq hb
  dsimp only at h
  split at h
  · exact .inr ⟨_, _, integer_bounds hw h, Ty.wrap_unsigned hb hs lo, Ty.wrap_unsigned hb hs hi⟩
  · exact .inl (integer_full hb h)

end Range

/-- The bounds that are settled on stand for the exact ones, unless nothing is known. -/
theorem BinaryOp.settle_cases {op : BinaryOp} {s : Structs} {t : Ty} {r : Range} {lo hi : Int}
    (hw : t.Word) (h : op.settle t lo hi = .ok r) :
    r = s.rangeOf t ∨
      ∃ l u, r.bounds? = some (l, u) ∧ op.Settles t lo l ∧ op.Settles t hi u := by
  have exact_or_full : ¬ (t.isSigned = false ∧ (op = .add ∨ op = .subtract)) →
      Range.exactOrFull t lo hi = .ok r → r = s.rangeOf t ∨
        ∃ l u, r.bounds? = some (l, u) ∧ op.Settles t lo l ∧ op.Settles t hi u := by
    intro hno h
    rcases Range.exactOrFull_cases (s := s) hw h with h | h
    · exact .inl h
    · exact .inr ⟨lo, hi, h, by rw [Settles, if_neg hno], by rw [Settles, if_neg hno]⟩
  have arithmetic : op = .add ∨ op = .subtract → Range.arithmetic t lo hi = .ok r →
      r = s.rangeOf t ∨
        ∃ l u, r.bounds? = some (l, u) ∧ op.Settles t lo l ∧ op.Settles t hi u := by
    intro hop h
    unfold Range.arithmetic at h
    split at h
    · next hs => exact exact_or_full (fun hno => by simp [hs] at hno) h
    · next hs =>
      have hs : t.isSigned = false := by simpa using hs
      rcases Range.wrapped_cases (s := s) hw hs h with h | ⟨l, u, hb, hl, hu⟩
      · exact .inl h
      · refine .inr ⟨l, u, hb, ?_, ?_⟩
        · rwa [Settles, if_pos ⟨hs, hop⟩]
        · rwa [Settles, if_pos ⟨hs, hop⟩]
  cases op with
  | add => exact arithmetic (.inl rfl) h
  | subtract => exact arithmetic (.inr rfl) h
  | _ => exact exact_or_full (by simp) h

namespace Transfer

variable {s : Structs} {op : BinaryOp} {t : Ty} {a b r : Range}

/-- An operation has an answer only on operands that have bounds. -/
theorem bounds_of_apply {answer : Except Violation Range}
    (h : (Transfer.binary op).apply t [a, b] = .ok answer) :
    ∃ aMin aMax bMin bMax, a.bounds? = some (aMin, aMax) ∧ b.bounds? = some (bMin, bMax) := by
  cases ha : a.bounds? with
  | none =>
    cases hb : b.bounds? <;> cases op <;>
      simp [apply, operandPair, operand, binaryRange, Range.less, Range.lessEquals,
        Range.operandBounds, ha, hb, bind, Except.bind, Except.map, pure, Except.pure] at h
  | some p =>
    cases hb : b.bounds? with
    | none =>
      rw [binary_apply ha] at h
      cases op <;>
        simp [binaryRange, Range.add, Range.subtract, Range.multiply, Range.divide,
          Range.modulo, Range.equals, Range.less, Range.lessEquals, Range.operandBounds, ha,
            hb, bind,
          Except.bind, Except.map] at h
    | some q => exact ⟨p.1, p.2, q.1, q.2, rfl, rfl⟩

/-- An operation that has a range divides by no range that is known to be zero. -/
theorem not_literal_zero (h : (Transfer.binary op).apply t [a, b] = .ok (.ok r)) :
    op = .divide ∨ op = .modulo → b.literalValue? ≠ some 0 := by
  obtain ⟨aMin, aMax, bMin, bMax, ha, hb⟩ := bounds_of_apply h
  rw [binary_apply ha] at h
  rintro (rfl | rfl) hz
  · rw [binaryRange, Range.divide_zero ha hz hb] at h
    cases h
  · rw [binaryRange, Range.modulo_zero ha hz hb] at h
    cases h

end Transfer

namespace Builtin

variable {s : Structs} {o : Overload} {t : Ty} {a b r : Range}

/-- A sum, difference, product or quotient is bounded by results, or not at all. -/
theorem binary_tight {op : BinaryOp} (hop : op ∈ BinaryOp.tight) (h : o ∈ overloads)
    (ho : o.operator = .binary op) (hp : o.parameters = [t, t]) (ha : a.Suits s t)
    (hb : b.Suits s t) (hr : o.transfer.apply o.result [a, b] = .ok (.ok r)) :
    r = s.rangeOf t ∨
      ∃ lo hi, r.bounds? = some (lo, hi) ∧ op.Reaches t a b lo ∧ op.Reaches t a b hi := by
  obtain ⟨u, -, -, -, htransfer⟩ := binary_overload h ho
  rcases binary_result h ho hp with ⟨-, hi, hres⟩ | ⟨hcompare, -, -⟩
  · have hw := word_of_mem (mem_all_of_integers hi)
    obtain ⟨low, high, hbt⟩ := bounds_of_integers hi
    rw [htransfer, hres] at hr
    obtain ⟨lo, hi, hull, hsettle⟩ := Transfer.binary_settled hop hw hbt ha hb
      fun hd => Transfer.not_literal_zero hr (.inl hd)
    obtain ⟨r', hr', heq⟩ := map_eq_ok.mp (hsettle.symm.trans hr)
    cases heq
    rcases BinaryOp.settle_cases (s := s) hw hr' with hfull | ⟨l, u, hbounds, hl, hu⟩
    · exact .inl hfull
    · exact .inr ⟨l, u, hbounds, ⟨lo, hull.1.1, hl⟩, ⟨hi, hull.2.1, hu⟩⟩
  · have apart : ∀ op ∈ BinaryOp.tight, op ∉ equality ++ ordering := by decide
    exact absurd hcompare (apart op hop)

/-- The range of a negation starts and ends with a result, if it is not the whole type. -/
theorem negate_tight (h : o ∈ overloads) (ho : o.operator = .unary .negate)
    (hp : o.parameters = [t]) (ha : a.Suits s t)
    (hr : o.transfer.apply o.result [a] = .ok (.ok r)) :
    r = s.rangeOf t ∨
      ∃ lo hi, r.bounds? = some (lo, hi) ∧ lo ∈ a.negations ∧ hi ∈ a.negations := by
  obtain ⟨u, hu, hpu, hres, htransfer⟩ := unary_overload h ho
  cases hp.symm.trans hpu
  have integer : ∀ o ∈ overloads, o.operator = .unary .negate → ∀ u ∈ o.parameters,
      u.bounds?.isSome = true := by
    decide +kernel
  obtain ⟨⟨low, high⟩, hbt⟩ := Option.isSome_iff_exists.mp
    (integer o h ho t (by rw [hp]; exact (.head _)))
  rw [htransfer, hres] at hr
  obtain ⟨lo, hi, hull, hsettle⟩ := Range.negate_settled hbt ha
  obtain ⟨r', hr', heq⟩ := map_eq_ok.mp (hsettle.symm.trans hr)
  cases heq
  have hw := word_of_mem (mem_all_of_values hu)
  rcases Range.exactOrFull_cases (s := s) hw hr' with hfull | hbounds
  · exact .inl hfull
  · exact .inr ⟨lo, hi, hbounds, hull.1.1, hull.2.1⟩

/-- **The ranges of operations are tight.**  A sum, difference, product, quotient or negation is
given the whole range of its type, or one whose bounds are both results of the operation on numbers
of the operands' ranges, where only sums and differences without sign are taken modulo the size of
the type.  A comparison can give a boolean exactly if it gives it on some numbers of the ranges. -/
theorem operators_tight (s : Structs) :
    (∀ op ∈ BinaryOp.tight, ∀ o ∈ overloads, ∀ t a b, o.operator = .binary op →
      o.parameters = [t, t] → a.Suits s t → b.Suits s t →
      ∃ answer, o.transfer.apply o.result [a, b] = .ok answer ∧
        ∀ r, answer = .ok r → r = s.rangeOf t ∨
          ∃ lo hi, r.bounds? = some (lo, hi) ∧ op.Reaches t a b lo ∧ op.Reaches t a b hi) ∧
    (∀ o ∈ overloads, ∀ t a, o.operator = .unary .negate → o.parameters = [t] → a.Suits s t →
      ∃ r, o.transfer.apply o.result [a] = .ok (.ok r) ∧ (r = s.rangeOf t ∨
        ∃ lo hi, r.bounds? = some (lo, hi) ∧ lo ∈ a.negations ∧ hi ∈ a.negations)) ∧
    ∀ op ∈ equality ++ ordering, ∀ (t : Ty) (a b : Range) (m₀ n₀ : Int),
      a.Holds m₀ → b.Holds n₀ →
      ∃ x, (Transfer.binary op).apply t [a, b] = .ok (.ok (.bools x)) ∧
        ∀ v, x.Holds (truth v) ↔
          ∃ m n, a.Holds m ∧ b.Holds n ∧ op.run? t m n = some (truth v) := by
  refine ⟨?_, ?_, ?_⟩
  · intro op hop o h t a b ho hp ha hb
    obtain ⟨answer, hanswer, -⟩ := binary_suits h ho hp ha hb
    refine ⟨answer, hanswer, ?_⟩
    rintro r rfl
    exact binary_tight hop h ho hp ha hb hanswer
  · intro o h t a ho hp ha
    obtain ⟨r, hr, -⟩ := unary_sound h ho hp ha
    exact ⟨r, hr, negate_tight h ho hp ha hr⟩
  · intro op hop t a b m₀ n₀ hm hn
    exact Transfer.comparison_exact t hop hm hn

/-- The numbers from -7 to 9, divided by those from -2 to 3: the bounds of the range are 9 divided
by -1 and by 1. -/
theorem operators_tight_quotient :
    (Range.signed (-7) 9).Suits .empty s8 ∧ (Range.signed (-2) 3).Suits .empty s8 ∧
    (Transfer.binary .divide).apply s8 [.signed (-7) 9, .signed (-2) 3] =
      .ok (.ok (.signed (-9) 9)) ∧
    BinaryOp.divide.Reaches s8 (.signed (-7) 9) (.signed (-2) 3) (-9) ∧
    BinaryOp.divide.Reaches s8 (.signed (-7) 9) (.signed (-2) 3) 9 := by
  have left : (Range.signed (-7) 9).Suits .empty s8 :=
    ⟨_, _, rfl, -128, 127, rfl, by decide, by decide, by decide⟩
  have right : (Range.signed (-2) 3).Suits .empty s8 :=
    ⟨_, _, rfl, -128, 127, rfl, by decide, by decide, by decide⟩
  have member : binary s8 s8 .divide ∈ overloads := by
    simp [overloads, integers, signed, integerOverloads, arithmetic]
  have answer : (Transfer.binary .divide).apply s8 [.signed (-7) 9, .signed (-2) 3] =
      .ok (.ok (.signed (-9) 9)) := by
    decide +kernel
  obtain ⟨_, h, tight⟩ := (operators_tight .empty).1 .divide (by decide) (binary s8 s8 .divide)
    member s8 _ _ rfl rfl left right
  rcases tight _ (Except.ok.inj (h.symm.trans answer)) with full | ⟨lo, hi, bounds, reached⟩
  · exact absurd full (by decide)
  · cases bounds
    exact ⟨left, right, answer, reached⟩

end Builtin

end Gauge
