import Gauge.Proofs.Range.Member
import Mathlib.Tactic.Linarith

/-!
# Proofs — the ranges of operations are sound

The range that an operation is given holds every value the operation can have on values of its
operands' ranges.  Bounds are compared over all integers: a sum lies between the sums of the
bounds, a product between the products at the corners, a quotient between the quotients at the
corners of each sign of the divisor.  What a type then does to the exact result is the same for
all of them (`exactOrFull_holds`, `wrapped_holds`).

Main statements: `Transfer.binary_holds`, `Transfer.unary_holds`, `Structs.convertedRange_holds`.
-/

namespace Gauge

/-! ### The bounds of integer types -/

theorem intPow_eq (n : Nat) : Int.pow 2 n = 2 ^ n := rfl

theorem Scalar.bounds?_eq (s : Scalar) :
    s.bounds? = match s.kind with
      | .unsignedInt | .char => some (0, 2 ^ (s.size.toNat * 8) - 1)
      | .signedInt => some (-(2 ^ (s.size.toNat * 8 - 1)), 2 ^ (s.size.toNat * 8 - 1) - 1)
      | .void | .bool => none := by
  rw [bounds?]
  cases s.kind <;> rfl

namespace Ty

variable {t : Ty} {low high v z : Int}

theorem bounds_eq_some {p : Int × Int} (h : t.bounds? = some p) :
    ∃ s, t.scalar? = some s ∧ s.bounds? = some p := by
  simpa only [bounds?, Option.bind_eq_some_iff] using h

theorem eq_scalar_of_bounds {p : Int × Int} (h : t.bounds? = some p) :
    ∃ f s, t = .scalar f s ∧ s.bounds? = some p := by
  obtain ⟨s, ht, hb⟩ := bounds_eq_some h
  cases t <;> cases ht
  exact ⟨_, s, rfl, hb⟩

theorem isSigned_eq {s : Scalar} (h : t.scalar? = some s) :
    t.isSigned = (s.kind == .signedInt) := by
  simp [isSigned, hasKind, h]

/-- The bounds of an integer type without sign. -/
theorem unsigned_bounds_eq (hb : t.bounds? = some (low, high)) (hs : t.isSigned = false) :
    ∃ s, t.scalar? = some s ∧ low = 0 ∧ high = 2 ^ (s.size.toNat * 8) - 1 := by
  obtain ⟨s, ht, hb⟩ := bounds_eq_some hb
  rw [isSigned_eq ht] at hs
  refine ⟨s, ht, ?_⟩
  cases hk : s.kind <;> simp only [Scalar.bounds?_eq, hk, Option.some.injEq, Prod.mk.injEq,
    reduceCtorEq] at hb <;> simp [hk] at hs
  · exact ⟨hb.1.symm, hb.2.symm⟩
  · exact ⟨hb.1.symm, hb.2.symm⟩

/-- The bounds of an integer type with a sign. -/
theorem signed_bounds_eq (hb : t.bounds? = some (low, high)) (hs : t.isSigned = true) :
    ∃ s, t.scalar? = some s ∧ low = -2 ^ (s.size.toNat * 8 - 1) ∧
      high = 2 ^ (s.size.toNat * 8 - 1) - 1 := by
  obtain ⟨s, ht, hb⟩ := bounds_eq_some hb
  rw [isSigned_eq ht] at hs
  have hk : s.kind = .signedInt := by simpa using hs
  simp only [Scalar.bounds?_eq, hk, Option.some.injEq, Prod.mk.injEq] at hb
  exact ⟨s, ht, hb.1.symm, hb.2.symm⟩

theorem unsigned_bounds (hb : t.bounds? = some (low, high)) (hs : t.isSigned = false) :
    low = 0 ∧ 0 ≤ high := by
  obtain ⟨s, -, rfl, rfl⟩ := unsigned_bounds_eq hb hs
  have hp : (0 : Int) < 2 ^ (s.size.toNat * 8) := by positivity
  omega

theorem unsigned_bounds_word (hw : t.Word) (hb : t.bounds? = some (low, high))
    (hs : t.isSigned = false) : high < 2 ^ 64 := by
  obtain ⟨s, ht, -, rfl⟩ := unsigned_bounds_eq hb hs
  have hp : (2 : Int) ^ (s.size.toNat * 8) ≤ 2 ^ 64 :=
    pow_le_pow_right₀ (by norm_num) (by have := (hw s ht).1; omega)
  omega

/-- A signed type has one number more below zero than above. -/
theorem signed_bounds (hb : t.bounds? = some (low, high)) (hs : t.isSigned = true) :
    low < 0 ∧ high = -low - 1 := by
  obtain ⟨s, -, rfl, rfl⟩ := signed_bounds_eq hb hs
  have hp : (0 : Int) < 2 ^ (s.size.toNat * 8 - 1) := by positivity
  omega

theorem signed_bounds_word (hw : t.Word) (hb : t.bounds? = some (low, high))
    (hs : t.isSigned = true) : -2 ^ 63 ≤ low ∧ high < 2 ^ 63 := by
  obtain ⟨s, ht, rfl, rfl⟩ := signed_bounds_eq hb hs
  have hp : (2 : Int) ^ (s.size.toNat * 8 - 1) ≤ 2 ^ 63 :=
    pow_le_pow_right₀ (by norm_num) (by have := (hw s ht).1; omega)
  omega

theorem low_le_high (hb : t.bounds? = some (low, high)) : low ≤ 0 ∧ 0 ≤ high := by
  cases hs : t.isSigned with
  | false => have := unsigned_bounds hb hs; omega
  | true => have := signed_bounds hb hs; omega

theorem admits_iff (hb : t.bounds? = some (low, high)) : t.Admits v ↔ low ≤ v ∧ v ≤ high := by
  obtain ⟨s, ht, hb⟩ := bounds_eq_some hb
  constructor
  · rintro ⟨s', ht', h⟩
    cases ht.symm.trans ht'
    simpa only [Scalar.Admits, hb] using h
  · intro h
    exact ⟨s, ht, by simpa only [Scalar.Admits, hb] using h⟩

theorem bounds_of_result (h : t.result? z = some v) : ∃ low high, t.bounds? = some (low, high) := by
  unfold result? at h
  split at h
  · cases h
  case h_2 low high hb => exact ⟨low, high, hb⟩

/-- What arithmetic gives is a value of its type. -/
theorem admits_result (h : t.result? z = some v) : t.Admits v := by
  unfold result? at h
  split at h
  case h_1 => cases h
  case h_2 low high hb =>
    rw [admits_iff hb]
    split at h
    case isTrue hs =>
      split at h
      · cases h; assumption
      · cases h
    case isFalse hs =>
      obtain ⟨rfl, hh⟩ := unsigned_bounds hb (by simpa using hs)
      cases h
      have := Int.emod_nonneg z (b := high + 1) (by omega)
      have := Int.emod_lt_of_pos z (b := high + 1) (by omega)
      omega

/-- An exact result that the type can hold is the result. -/
theorem result_eq_self (hb : t.bounds? = some (low, high)) (hl : low ≤ z) (hh : z ≤ high) :
    t.result? z = some z := by
  simp only [result?, hb]
  split
  · rw [if_pos ⟨hl, hh⟩]
  case isFalse hs =>
    obtain ⟨rfl, -⟩ := unsigned_bounds hb (by simpa using hs)
    rw [Int.emod_eq_of_lt hl (by omega)]

theorem two_pow_half {n : Nat} (h : 0 < n) : (2 : Int) ^ (n * 8) = 2 * 2 ^ (n * 8 - 1) := by
  rw [← pow_succ']
  congr 1
  omega

/-- Conversion to an integer type gives a value of it. -/
theorem admits_wrap (hw : t.Word) (h : t.wrap? z = some v) : t.Admits v := by
  unfold wrap? at h
  split at h
  · cases h
  case h_2 s ht =>
    have hp : (0 : Int) < 2 ^ (s.size.toNat * 8) := by positivity
    refine ⟨s, ht, ?_⟩
    split at h
    case h_1 hk | h_2 hk =>
      cases h
      have := Int.emod_nonneg z (b := 2 ^ (s.size.toNat * 8)) (by omega)
      have := Int.emod_lt_of_pos z hp
      simp only [Scalar.Admits, Scalar.bounds?_eq, hk]
      omega
    case h_3 hk =>
      cases h
      have := Int.le_bmod (x := z) (m := 2 ^ (s.size.toNat * 8)) (by positivity)
      have := Int.bmod_lt (x := z) (m := 2 ^ (s.size.toNat * 8)) (by positivity)
      have hh := two_pow_half ((hw s ht).2 hk)
      simp only [Scalar.Admits, Scalar.bounds?_eq, hk]
      push_cast at *
      omega
    all_goals cases h

end Ty

/-! ### Bounds and what a type does to them -/

namespace Range

variable {t : Ty} {a b r : Range} {lo hi x y z v : Int} {low high : Int}

theorem ofBounds_holds (hw : t.Word) (hb : t.bounds? = some (low, high))
    (hlow : low ≤ lo) (hhigh : hi ≤ high) (hl : lo ≤ v) (hh : v ≤ hi) :
    (ofBounds t lo hi).Holds v := by
  unfold ofBounds
  split
  case isTrue hs =>
    obtain ⟨h₁, h₂⟩ := Ty.signed_bounds_word hw hb hs
    simp only [Holds]
    rw [Int.bmod_eq_of_le (by omega) (by omega), Int.bmod_eq_of_le (by omega) (by omega)]
    exact ⟨hl, hh⟩
  case isFalse hs =>
    have hs : t.isSigned = false := by simpa using hs
    obtain ⟨rfl, h₁⟩ := Ty.unsigned_bounds hb hs
    have h₂ := Ty.unsigned_bounds_word hw hb hs
    simp only [Holds]
    omega

/-- The bounds of a range of values of the type are kept as they are. -/
theorem bounds_ofBounds (hw : t.Word) (hb : t.bounds? = some (low, high))
    (hl : low ≤ lo) (hle : lo ≤ hi) (hh : hi ≤ high) :
    (ofBounds t lo hi).bounds? = some (lo, hi) := by
  unfold ofBounds
  split
  case isTrue hs =>
    obtain ⟨h₁, h₂⟩ := Ty.signed_bounds_word hw hb hs
    rw [Int.bmod_eq_of_le (by omega) (by omega), Int.bmod_eq_of_le (by omega) (by omega)]
    rfl
  case isFalse hs =>
    have hs : t.isSigned = false := by simpa using hs
    obtain ⟨rfl, -⟩ := Ty.unsigned_bounds hb hs
    have := Ty.unsigned_bounds_word hw hb hs
    simp only [bounds?, Option.some.injEq, Prod.mk.injEq]
    omega

theorem integer_holds (hw : t.Word) (h : integer t lo hi = .ok r) (hl : lo ≤ v) (hh : v ≤ hi) :
    r.Holds v := by
  unfold integer at h
  split at h
  · cases h
  case h_2 low high hb =>
    split at h
    case isTrue hr => cases h; exact ofBounds_holds hw hb hr.1 hr.2.2 hl hh
    case isFalse => cases h

/-- A single value of a type, as a range. -/
theorem literal_holds (hw : t.Word) (hi : t.isBool = false) (h : literal t v = .ok r) :
    r.Holds v := by
  rw [literal, hi] at h
  exact integer_holds hw h le_rfl le_rfl

theorem resultBounds_eq (h : resultBounds t = .ok (low, high)) : t.bounds? = some (low, high) := by
  unfold resultBounds at h
  split at h
  · cases h; assumption
  · cases h

/-- Every value of an integer type. -/
theorem full_holds (hw : t.Word) (hb : t.bounds? = some (low, high))
    (h : integer t low high = .ok r) (hv : t.Admits v) : r.Holds v := by
  obtain ⟨hl, hh⟩ := (Ty.admits_iff hb).mp hv
  exact integer_holds hw h hl hh

theorem exactOrFull_holds (hw : t.Word) (h : exactOrFull t lo hi = .ok r) (hl : lo ≤ z)
    (hh : z ≤ hi) (hv : t.result? z = some v) : r.Holds v := by
  simp only [exactOrFull, bind_eq_ok, Prod.exists] at h
  obtain ⟨low, high, hb, h⟩ := h
  have hb := resultBounds_eq hb
  split at h
  case isTrue hr =>
    obtain rfl : z = v := by
      rw [Ty.result_eq_self hb (by omega) (by omega)] at hv
      exact Option.some.inj hv
    exact integer_holds hw h hl hh
  case isFalse => exact full_holds hw hb h (Ty.admits_result hv)

/-- Bounds that wrap around together keep what lies between them. -/
theorem wrapped_holds (hw : t.Word) (hs : t.isSigned = false) (h : wrapped t lo hi = .ok r)
    (hl : lo ≤ z) (hh : z ≤ hi) (hv : t.result? z = some v) : r.Holds v := by
  simp only [wrapped, bind_eq_ok, Prod.exists] at h
  obtain ⟨low, high, hb, h⟩ := h
  have hb := resultBounds_eq hb
  split at h
  case isTrue hq =>
    obtain ⟨rfl, h₀⟩ := Ty.unsigned_bounds hb hs
    obtain rfl : z % (high + 1) = v := by simpa [Ty.result?, hb, hs] using hv
    -- the exact result lies in the same turn as both bounds
    have hq₁ : lo / (high + 1) ≤ z / (high + 1) := Int.ediv_le_ediv (by omega) hl
    have hq₂ : z / (high + 1) ≤ hi / (high + 1) := Int.ediv_le_ediv (by omega) hh
    have e₁ := Int.emod_add_mul_ediv lo (high + 1)
    have e₂ := Int.emod_add_mul_ediv z (high + 1)
    have e₃ := Int.emod_add_mul_ediv hi (high + 1)
    have hz : z / (high + 1) = lo / (high + 1) := by omega
    rw [hz] at e₂
    rw [← hq] at e₃
    exact integer_holds hw h (by omega) (by omega)
  case isFalse => exact full_holds hw hb h (Ty.admits_result hv)

theorem arithmetic_holds (hw : t.Word) (h : arithmetic t lo hi = .ok r) (hl : lo ≤ z)
    (hh : z ≤ hi) (hv : t.result? z = some v) : r.Holds v := by
  unfold arithmetic at h
  split at h
  · exact exactOrFull_holds hw h hl hh hv
  case isFalse hs => exact wrapped_holds hw (by simpa using hs) h hl hh hv

/-- A range that has bounds, and is not empty, holds the numbers between them. -/
theorem holds_iff_bounds (h : r.bounds? = some (lo, hi)) (hle : lo ≤ hi) :
    r.Holds v ↔ lo ≤ v ∧ v ≤ hi := by
  cases r with
  | unsigned _ _ | signed _ _ =>
    cases h
    exact Iff.rfl
  | bools x =>
    obtain ⟨f, t⟩ := x
    cases h
    cases f <;> cases t <;> simp [Holds, Bools.Holds] at hle ⊢ <;> omega
  | pointer _ _ | array _ | void => cases h

/-- The bounds that an operation reads off a range hold the range's values. -/
theorem Holds.operandBounds (h : a.Holds x) :
    ∃ lo hi, a.operandBounds = .ok (lo, hi) ∧ lo ≤ x ∧ x ≤ hi := by
  obtain ⟨lo, hi, hb, hx⟩ := h.bounds
  exact ⟨lo, hi, by simp only [Range.operandBounds, hb], hx⟩

theorem add_holds (hw : t.Word) (h : a.add t b = .ok r) (hx : a.Holds x) (hy : b.Holds y)
    (hv : t.result? (x + y) = some v) : r.Holds v := by
  obtain ⟨aMin, aMax, ha, hx₁, hx₂⟩ := hx.operandBounds
  obtain ⟨bMin, bMax, hb, hy₁, hy₂⟩ := hy.operandBounds
  simp only [add, ha, hb, ok_bind] at h
  exact arithmetic_holds hw h (by omega) (by omega) hv

theorem subtract_holds (hw : t.Word) (h : a.subtract t b = .ok r) (hx : a.Holds x)
    (hy : b.Holds y) (hv : t.result? (x - y) = some v) : r.Holds v := by
  obtain ⟨aMin, aMax, ha, hx₁, hx₂⟩ := hx.operandBounds
  obtain ⟨bMin, bMax, hb, hy₁, hy₂⟩ := hy.operandBounds
  simp only [subtract, ha, hb, ok_bind] at h
  exact arithmetic_holds hw h (by omega) (by omega) hv

theorem negate_holds (hw : t.Word) (h : a.negate t = .ok r) (hx : a.Holds x)
    (hv : t.result? (-x) = some v) : r.Holds v := by
  obtain ⟨aMin, aMax, ha, hx₁, hx₂⟩ := hx.operandBounds
  simp only [negate, ha, ok_bind] at h
  exact exactOrFull_holds hw h (by omega) (by omega) hv

/-! ### Products -/

/-- A product lies between the products with the ends of one factor. -/
theorem mul_between (hl : lo ≤ x) (hh : x ≤ hi) (y : Int) :
    min (lo * y) (hi * y) ≤ x * y ∧ x * y ≤ max (lo * y) (hi * y) := by
  rcases le_total 0 y with hy | hy
  · have h₁ := Int.mul_le_mul_of_nonneg_right hl hy
    have h₂ := Int.mul_le_mul_of_nonneg_right hh hy
    omega
  · have h₁ := Int.mul_le_mul_of_nonpos_right hl hy
    have h₂ := Int.mul_le_mul_of_nonpos_right hh hy
    omega

theorem multiply_holds (hw : t.Word) (h : a.multiply t b = .ok r) (hx : a.Holds x)
    (hy : b.Holds y) (hv : t.result? (x * y) = some v) : r.Holds v := by
  obtain ⟨aMin, aMax, ha, hx₁, hx₂⟩ := hx.operandBounds
  obtain ⟨bMin, bMax, hb, hy₁, hy₂⟩ := hy.operandBounds
  simp only [multiply, ha, hb, ok_bind] at h
  have hxy := mul_between hx₁ hx₂ y
  have hmin := mul_between hy₁ hy₂ aMin
  have hmax := mul_between hy₁ hy₂ aMax
  rw [Int.mul_comm bMin, Int.mul_comm bMax, Int.mul_comm y] at hmin hmax
  exact exactOrFull_holds hw h (by omega) (by omega) hv

/-! ### Quotients -/

theorem tdiv_anti {x c d : Int} (hx : 0 ≤ x) (hc : 0 < c) (h : c ≤ d) : x.tdiv d ≤ x.tdiv c := by
  rw [Int.tdiv_eq_ediv_of_nonneg hx, Int.tdiv_eq_ediv_of_nonneg hx]
  apply Int.le_ediv_of_mul_le hc
  calc x / d * c ≤ x / d * d :=
        Int.mul_le_mul_of_nonneg_left h (Int.ediv_nonneg hx (by omega))
    _ ≤ x := Int.ediv_mul_le x (by omega)

/-- A quotient by positive divisors lies between those at the ends of the divisors. -/
theorem tdiv_between_pos {c d y : Int} (hc : 0 < c) (hl : c ≤ y) (hh : y ≤ d) (x : Int) :
    min (x.tdiv c) (x.tdiv d) ≤ x.tdiv y ∧ x.tdiv y ≤ max (x.tdiv c) (x.tdiv d) := by
  rcases le_total 0 x with hx | hx
  · have h₁ := tdiv_anti hx hc hl
    have h₂ := tdiv_anti hx (by omega : 0 < y) hh
    omega
  · have h₁ := tdiv_anti (by omega : 0 ≤ -x) hc hl
    have h₂ := tdiv_anti (by omega : 0 ≤ -x) (by omega : 0 < y) hh
    simp only [Int.neg_tdiv] at h₁ h₂
    omega

theorem tdiv_between_neg {c d y : Int} (hd : d < 0) (hl : c ≤ y) (hh : y ≤ d) (x : Int) :
    min (x.tdiv c) (x.tdiv d) ≤ x.tdiv y ∧ x.tdiv y ≤ max (x.tdiv c) (x.tdiv d) := by
  have h := tdiv_between_pos (by omega : 0 < -d) (by omega : -d ≤ -y) (by omega : -y ≤ -c) x
  simp only [Int.tdiv_neg] at h
  omega

/-- Division by a positive number keeps the order, by a negative one it turns it around. -/
theorem tdiv_between_left {lo hi x d : Int} (hl : lo ≤ x) (hh : x ≤ hi) (hd : d ≠ 0) :
    min (lo.tdiv d) (hi.tdiv d) ≤ x.tdiv d ∧ x.tdiv d ≤ max (lo.tdiv d) (hi.tdiv d) := by
  rcases lt_or_gt_of_ne hd with hd | hd
  · have h₁ := Int.tdiv_le_tdiv (by omega : 0 < -d) hl
    have h₂ := Int.tdiv_le_tdiv (by omega : 0 < -d) hh
    simp only [Int.tdiv_neg] at h₁ h₂
    omega
  · have h₁ := Int.tdiv_le_tdiv hd hl
    have h₂ := Int.tdiv_le_tdiv hd hh
    omega

/-- The ends of the negative and of the positive divisors between two bounds. -/
def Corner (bMin bMax d : Int) : Prop :=
  (bMin ≤ -1 ∧ (d = bMin ∨ d = min bMax (-1))) ∨ (1 ≤ bMax ∧ (d = max bMin 1 ∨ d = bMax))

theorem mem_quotients {aMin aMax bMin bMax q : Int} :
    q ∈ quotients aMin aMax bMin bMax ↔
      ∃ d, Corner bMin bMax d ∧ (q = aMin.tdiv d ∨ q = aMax.tdiv d) := by
  have mem_if : ∀ {c : Prop} [Decidable c] {d : Int} {ds : List Int},
      d ∈ (if c then ds else []) ↔ c ∧ d ∈ ds := by
    intro c _ d ds
    split <;> simp [*]
  simp only [quotients, Corner, List.mem_flatMap, List.mem_append, mem_if, List.mem_cons,
    List.not_mem_nil, or_false]

/-- A quotient lies between two of those at the corners. -/
theorem quotients_between {aMin aMax bMin bMax : Int} (hx₁ : aMin ≤ x) (hx₂ : x ≤ aMax)
    (hy₁ : bMin ≤ y) (hy₂ : y ≤ bMax) (hy : y ≠ 0) :
    (∃ q ∈ quotients aMin aMax bMin bMax, q ≤ x.tdiv y) ∧
      ∃ q ∈ quotients aMin aMax bMin bMax, x.tdiv y ≤ q := by
  -- the ends of the part of the divisors that has the sign of `y`
  obtain ⟨c, d, hc, hd, hbetween⟩ : ∃ c d, (c ≠ 0 ∧ Corner bMin bMax c) ∧
      (d ≠ 0 ∧ Corner bMin bMax d) ∧
      min (x.tdiv c) (x.tdiv d) ≤ x.tdiv y ∧ x.tdiv y ≤ max (x.tdiv c) (x.tdiv d) := by
    unfold Corner
    rcases lt_or_gt_of_ne hy with hn | hp
    · exact ⟨bMin, min bMax (-1), by omega, by omega, tdiv_between_neg (by omega) hy₁ (by omega) x⟩
    · exact ⟨max bMin 1, bMax, by omega, by omega, tdiv_between_pos (by omega) (by omega) hy₂ x⟩
  have hc' := tdiv_between_left hx₁ hx₂ hc.1
  have hd' := tdiv_between_left hx₁ hx₂ hd.1
  have corners : ∀ {P : Int → Prop}, (∀ q ∈ quotients aMin aMax bMin bMax, P q) →
      (P (aMin.tdiv c) ∧ P (aMax.tdiv c)) ∧ P (aMin.tdiv d) ∧ P (aMax.tdiv d) := by
    intro P h
    have both : ∀ {k}, Corner bMin bMax k → P (aMin.tdiv k) ∧ P (aMax.tdiv k) := fun hk =>
      ⟨h _ (mem_quotients.mpr ⟨_, hk, .inl rfl⟩), h _ (mem_quotients.mpr ⟨_, hk, .inr rfl⟩)⟩
    exact ⟨both hc.2, both hd.2⟩
  constructor
  · by_contra hno
    push Not at hno
    have := corners hno
    omega
  · by_contra hno
    push Not at hno
    have := corners hno
    omega

/-- A fold that chooses between two numbers goes one way. -/
theorem foldl_bounds {R : Int → Int → Prop} {f : Int → Int → Int} (refl : ∀ k, R k k)
    (trans : ∀ {k m n}, R k m → R m n → R k n) (step : ∀ k n, R (f k n) k ∧ R (f k n) n) :
    ∀ (ns : List Int) (k : Int), R (ns.foldl f k) k ∧ ∀ n ∈ ns, R (ns.foldl f k) n
  | [], k => ⟨refl k, nofun⟩
  | n :: ns, k => by
    obtain ⟨h₁, h₂⟩ := foldl_bounds refl trans step ns (f k n)
    exact ⟨trans h₁ (step k n).1, List.forall_mem_cons.mpr ⟨trans h₁ (step k n).2, h₂⟩⟩

theorem foldl_min_le {ns : List Int} (k : Int) : ∀ n ∈ ns, ns.foldl min k ≤ n :=
  (foldl_bounds le_refl le_trans (fun _ _ => ⟨min_le_left _ _, min_le_right _ _⟩) ns k).2

theorem le_foldl_max {ns : List Int} (k : Int) : ∀ n ∈ ns, n ≤ ns.foldl max k :=
  (foldl_bounds (R := fun m n => n ≤ m) le_refl (fun h h' => le_trans h' h)
    (fun _ _ => ⟨le_max_left _ _, le_max_right _ _⟩) ns k).2

/-- A range that is answered as it was computed. -/
theorem eq_of_answer {ε δ : Type} {x : Except ε Range}
    (h : (x >>= fun r' => pure (.ok r')) = Except.ok (.ok r : Except δ Range)) : x = .ok r := by
  obtain ⟨r', h, hr⟩ := bind_eq_ok.mp h
  cases pure_eq_ok.mp hr
  exact h

/-- The divisor of a division that may succeed is not known to be zero. -/
theorem Holds.not_literal_zero (hy : b.Holds y) (h : y ≠ 0) : b.literalValue? ≠ some 0 :=
  fun h₀ => h (hy.eq_literal h₀)

/-- Quotients lie between those at the corners. -/
theorem divide_holds (hw : t.Word) (h : a.divide t b = .ok (.ok r)) (hx : a.Holds x)
    (hy : b.Holds y) (hax : t.Admits x) (hay : t.Admits y) (h₀ : y ≠ 0)
    (hv : t.result? (x.tdiv y) = some v) : r.Holds v := by
  obtain ⟨aMin, aMax, ha, hx₁, hx₂⟩ := hx.operandBounds
  obtain ⟨bMin, bMax, hb, hy₁, hy₂⟩ := hy.operandBounds
  simp only [divide, ha, hb, ok_bind, if_neg (hy.not_literal_zero h₀)] at h
  cases hs : t.isSigned with
  | false =>
    simp only [hs, Bool.not_false, if_true] at h
    split at h
    · cases h
    obtain ⟨low, high, hbt⟩ := Ty.bounds_of_result hv
    obtain ⟨rfl, -⟩ := Ty.unsigned_bounds hbt hs
    have hxr := (Ty.admits_iff hbt).mp hax
    have hyr := (Ty.admits_iff hbt).mp hay
    replace h := eq_of_answer h
    have hq := Int.tdiv_le_self y hxr.1
    have hq₀ := Int.tdiv_nonneg hxr.1 hyr.1
    obtain rfl : x.tdiv y = v := by
      rw [Ty.result_eq_self hbt hq₀ (by omega)] at hv
      exact Option.some.inj hv
    refine integer_holds hw h ?_ ?_
    · rcases le_total 0 aMin with ha₀ | ha₀
      · have := tdiv_anti ha₀ (by omega : 0 < y) hy₂
        have := Int.tdiv_le_tdiv (by omega : 0 < y) hx₁
        omega
      · have := Int.tdiv_nonneg (by omega : 0 ≤ -aMin) (by omega : 0 ≤ bMax)
        rw [Int.neg_tdiv] at this
        omega
    · have := tdiv_anti (by omega : 0 ≤ aMax) (by omega : 0 < max bMin 1)
        (by omega : max bMin 1 ≤ y)
      have := Int.tdiv_le_tdiv (by omega : 0 < y) hx₂
      omega
  | true =>
    simp only [hs, Bool.not_true, Bool.false_eq_true, if_false] at h
    obtain ⟨⟨low, high⟩, hbt, h⟩ := bind_eq_ok.mp h
    split at h
    · exact full_holds hw (resultBounds_eq hbt) (eq_of_answer h) (Ty.admits_result hv)
    · replace h := eq_of_answer h
      obtain ⟨⟨q, hq, hlo⟩, q', hq', hhi⟩ := quotients_between hx₁ hx₂ hy₁ hy₂ h₀
      refine exactOrFull_holds hw h ?_ ?_ hv
      · exact (foldl_min_le _ q hq).trans hlo
      · exact hhi.trans (le_foldl_max _ q' hq')

/-! ### Remainders -/

/-- A remainder has the sign of the dividend, and is smaller than both in size. -/
theorem tmod_between (hy : y ≠ 0) :
    (0 ≤ x → 0 ≤ x.tmod y ∧ x.tmod y ≤ x) ∧ (x ≤ 0 → x ≤ x.tmod y ∧ x.tmod y ≤ 0) ∧
      -(y.natAbs - 1 : Int) ≤ x.tmod y ∧ x.tmod y ≤ y.natAbs - 1 := by
  have habs := Int.natAbs_tmod x y
  have hlt := Nat.mod_lt x.natAbs (by omega : 0 < y.natAbs)
  have hle := Nat.mod_le x.natAbs y.natAbs
  have hpos : 0 ≤ x → 0 ≤ x.tmod y := Int.tmod_nonneg y
  have hneg : x ≤ 0 → x.tmod y ≤ 0 := fun hx => by
    have := Int.tmod_nonneg y (by omega : 0 ≤ -x)
    rw [Int.neg_tmod] at this
    omega
  refine ⟨fun hx => ?_, fun hx => ?_, ?_⟩
  · have := hpos hx; omega
  · have := hneg hx; omega
  · omega

/-- Remainders are bounded by the dividend and by the divisor. -/
theorem modulo_holds (hw : t.Word) (h : a.modulo t b = .ok (.ok r)) (hx : a.Holds x)
    (hy : b.Holds y) (hax : t.Admits x) (hay : t.Admits y) (h₀ : y ≠ 0)
    (hv : t.result? (x.tmod y) = some v) : r.Holds v := by
  obtain ⟨aMin, aMax, ha, hx₁, hx₂⟩ := hx.operandBounds
  obtain ⟨bMin, bMax, hb, hy₁, hy₂⟩ := hy.operandBounds
  obtain ⟨hpos, hneg, hm₁, hm₂⟩ := tmod_between (x := x) h₀
  simp only [modulo, ha, hb, ok_bind, if_neg (hy.not_literal_zero h₀)] at h
  cases hs : t.isSigned with
  | false =>
    obtain ⟨low, high, hbt⟩ := Ty.bounds_of_result hv
    obtain ⟨rfl, -⟩ := Ty.unsigned_bounds hbt hs
    have hxr := (Ty.admits_iff hbt).mp hax
    have hyr := (Ty.admits_iff hbt).mp hay
    have hm := hpos hxr.1
    obtain rfl : x.tmod y = v := by
      rw [Ty.result_eq_self hbt hm.1 (by omega)] at hv
      exact Option.some.inj hv
    simp only [hs, Bool.not_false, if_true] at h
    split at h
    · replace h := eq_of_answer h
      rw [Int.tmod_eq_of_lt hxr.1 (by omega)]
      exact integer_holds hw h hx₁ hx₂
    · exact integer_holds hw (eq_of_answer h) hm.1 (by omega)
  | true =>
    simp only [hs, Bool.not_true, Bool.false_eq_true, if_false] at h
    replace h := eq_of_answer h
    refine exactOrFull_holds hw h ?_ ?_ hv
    · split
      · rcases le_total 0 x with h | h
        · have := hpos h; omega
        · have := hneg h; omega
      · exact (hpos (by omega)).1
    · split
      · rcases le_total 0 x with h | h
        · have := hpos h; omega
        · have := hneg h; omega
      · exact (hneg (by omega)).2

theorem not_holds (hx : a.Holds x) (hv : UnaryOp.not.run? t x = some v) : a.not.Holds v := by
  simp only [UnaryOp.run?] at hv
  have h01 : x = 0 ∨ x = 1 := by
    split at hv
    · exact .inl ‹_›
    · split at hv
      · exact .inr ‹_›
      · cases hv
  have hs := hx.bools h01
  rcases h01 with rfl | rfl
  · cases hv
    exact .inr ⟨rfl, by simpa [Bools.Holds, Bools.not] using hs⟩
  · cases hv
    exact .inl ⟨rfl, by simpa [Bools.Holds, Bools.not] using hs⟩

end Range

namespace Transfer

variable {t : Ty} {a b : Range}

/-- What an operator computes from two ranges, once the first is known to have bounds. -/
theorem binary_apply {bounds : Int × Int} (h : a.bounds? = some bounds) (op : BinaryOp) :
    (Transfer.binary op).apply t [a, b] = binaryRange t a b op := by
  have pair : operandPair [a, b] op = .ok (a, b) := by
    cases op <;> simp [operandPair, operand, Range.operandBounds, h]
  simp only [apply, pair, ok_bind]

end Transfer

/-! ### Comparisons -/

namespace Range

variable {a b : Range} {P : Int → Int → Prop} {x : Bools}

/-- A set of booleans holds exactly the answers to a question about two numbers of the ranges. -/
structure Answers (P : Int → Int → Prop) (a b : Range) (x : Bools) : Prop where
  trues : x.trues = true ↔ ∃ m n, a.Holds m ∧ b.Holds n ∧ P m n
  falses : x.falses = true ↔ ∃ m n, a.Holds m ∧ b.Holds n ∧ ¬ P m n

theorem Answers.not (h : Answers P a b x) : Answers (fun m n => ¬ P m n) a b x.not :=
  ⟨h.falses, by simpa only [not_not, Bools.not] using h.trues⟩

theorem Answers.swap (h : Answers P a b x) : Answers (fun m n => P n m) b a x := by
  have turned : ∀ Q : Int → Int → Prop, (∃ m n, a.Holds m ∧ b.Holds n ∧ Q m n) ↔
      ∃ m n, b.Holds m ∧ a.Holds n ∧ Q n m := by
    intro Q
    rw [exists_comm]
    simp only [and_left_comm]
  exact ⟨h.trues.trans (turned _), h.falses.trans (turned _)⟩

/-- What a comparison can give, if this is what it asks of two numbers. -/
theorem Answers.runs [∀ m n, Decidable (P m n)] {op : BinaryOp} {t : Ty} (h : Answers P a b x)
    (run : ∀ m n, op.run? t m n = some (truth (decide (P m n)))) (v : Bool) :
    x.Holds (truth v) ↔ ∃ m n, a.Holds m ∧ b.Holds n ∧ op.run? t m n = some (truth v) := by
  have truths : ∀ c d : Bool, truth c = truth d ↔ c = d := by decide
  simp only [run, Option.some.injEq, Bools.holds_truth, truths]
  cases v with
  | true => simp only [if_true, h.trues, decide_eq_true_eq]
  | false => simp only [Bool.false_eq_true, if_false, h.falses, decide_eq_false_iff_not]

section

variable {aMin aMax bMin bMax : Int} (ha : a.bounds? = some (aMin, aMax)) (hale : aMin ≤ aMax)
  (hb : b.bounds? = some (bMin, bMax)) (hble : bMin ≤ bMax)

include ha hale hb hble

theorem less_answers : ∃ x, a.less b = .ok (.bools x) ∧ Answers (· < ·) a b x := by
  simp only [less, operandBounds, ha, hb, ok_bind]
  refine ⟨_, rfl, ?_, ?_⟩
  · simp only [decide_eq_true_eq, holds_iff_bounds ha hale, holds_iff_bounds hb hble]
    constructor
    · exact fun h => ⟨aMin, bMax, by omega, by omega, h⟩
    · rintro ⟨m, n, hm, hn, h⟩
      omega
  · simp only [decide_eq_true_eq, holds_iff_bounds ha hale, holds_iff_bounds hb hble]
    constructor
    · exact fun h => ⟨aMax, bMin, by omega, by omega, by omega⟩
    · rintro ⟨m, n, hm, hn, h⟩
      omega

theorem lessEquals_answers : ∃ x, a.lessEquals b = .ok (.bools x) ∧ Answers (· ≤ ·) a b x := by
  obtain ⟨x, hx, answers⟩ := less_answers hb hble ha hale
  refine ⟨x.not, ?_, by simpa only [not_lt] using answers.swap.not⟩
  simp only [less, lessEquals, operandBounds, ha, hb, ok_bind] at hx ⊢
  cases hx
  rfl

/-- Equality is answered exactly. -/
theorem equals_answers : ∃ x, a.equals b = .ok (.bools x) ∧ Answers (· = ·) a b x := by
  simp only [equals, operandBounds, ha, hb, ok_bind]
  refine ⟨_, rfl, ?_, ?_⟩
  · simp only [Bool.not_eq_true', Bool.or_eq_false_iff, decide_eq_false_iff_not,
      holds_iff_bounds ha hale, holds_iff_bounds hb hble]
    constructor
    · -- ranges that overlap share the greater of their lower bounds
      exact fun h => ⟨max aMin bMin, max aMin bMin, by omega, by omega, rfl⟩
    · rintro ⟨m, n, hm, hn, h⟩
      omega
  · simp only [Bool.not_eq_true', Bool.and_eq_false_iff, decide_eq_false_iff_not,
      holds_iff_bounds ha hale, holds_iff_bounds hb hble]
    constructor
    · intro h
      by_cases hmin : aMin = bMin
      · by_cases hmax : aMin = aMax
        · exact ⟨aMin, bMax, by omega, by omega, by omega⟩
        · exact ⟨aMax, bMin, by omega, by omega, by omega⟩
      · exact ⟨aMin, bMin, by omega, by omega, hmin⟩
    · rintro ⟨m, n, hm, hn, h⟩
      omega

end

end Range

/-- **Comparisons are exact**: they can give a boolean exactly if some operands give it. -/
theorem Transfer.comparison_exact {op : BinaryOp} {a b : Range} {m₀ n₀ : Int} (t : Ty)
    (hop : op ∈ Builtin.equality ++ Builtin.ordering) (hm : a.Holds m₀) (hn : b.Holds n₀) :
    ∃ x, (Transfer.binary op).apply t [a, b] = .ok (.ok (.bools x)) ∧
      ∀ v, x.Holds (truth v) ↔
        ∃ m n, a.Holds m ∧ b.Holds n ∧ op.run? t m n = some (truth v) := by
  obtain ⟨aMin, aMax, ha, hm₁, hm₂⟩ := hm.bounds
  obtain ⟨bMin, bMax, hb, hn₁, hn₂⟩ := hn.bounds
  have hale : aMin ≤ aMax := hm₁.trans hm₂
  have hble : bMin ≤ bMax := hn₁.trans hn₂
  rw [binary_apply ha]
  cases op with
  | equals =>
    obtain ⟨x, hx, answers⟩ := Range.equals_answers ha hale hb hble
    exact ⟨x, by rw [binaryRange, hx]; rfl, answers.runs fun _ _ => rfl⟩
  | notEquals =>
    obtain ⟨x, hx, answers⟩ := Range.equals_answers ha hale hb hble
    exact ⟨x.not, by rw [binaryRange, hx]; rfl, answers.not.runs fun _ _ => rfl⟩
  | less =>
    obtain ⟨x, hx, answers⟩ := Range.less_answers ha hale hb hble
    exact ⟨x, by rw [binaryRange, hx]; rfl, answers.runs fun _ _ => rfl⟩
  | lessEquals =>
    obtain ⟨x, hx, answers⟩ := Range.lessEquals_answers ha hale hb hble
    exact ⟨x, by rw [binaryRange, hx]; rfl, answers.runs fun _ _ => rfl⟩
  | greater =>
    obtain ⟨x, hx, answers⟩ := Range.less_answers hb hble ha hale
    exact ⟨x, by rw [binaryRange, hx]; rfl, answers.swap.runs fun _ _ => rfl⟩
  | greaterEquals =>
    obtain ⟨x, hx, answers⟩ := Range.lessEquals_answers hb hble ha hale
    exact ⟨x, by rw [binaryRange, hx]; rfl, answers.swap.runs fun _ _ => rfl⟩
  | _ => exact absurd hop (by decide)

/-! ### Operators -/

namespace Transfer

variable {t : Ty} {a b r : Range} {x y v : Int}

/-- **Binary operators are sound.**  Where the result has an integer type, the operands are values
of that type. -/
theorem binary_holds {op : BinaryOp} (hw : t.Word)
    (h : (Transfer.binary op).apply t [a, b] = .ok (.ok r)) (hx : a.Holds x) (hy : b.Holds y)
    (hax : t.isBool = false → t.Admits x) (hay : t.isBool = false → t.Admits y)
    (hv : op.run? t x y = some v) : r.Holds v := by
  obtain ⟨_, _, hab, -⟩ := hx.bounds
  have nb : ∀ {z : Int}, t.result? z = some v → t.isBool = false := fun hz => by
    obtain ⟨low, high, hb⟩ := Ty.bounds_of_result hz
    obtain ⟨s, hs, hb⟩ := Ty.bounds_eq_some hb
    cases hk : s.kind <;> simp [Scalar.bounds?_eq, hk] at hb <;>
      simp [Ty.isBool, Ty.hasKind, hs, hk]
  have compared := fun hop => @comparison_exact op a b x y t hop hx hy
  cases op with
  | add =>
    obtain ⟨r', h, hr⟩ := map_eq_ok.mp (binary_apply hab _ ▸ h)
    cases hr
    exact Range.add_holds hw h hx hy hv
  | subtract =>
    obtain ⟨r', h, hr⟩ := map_eq_ok.mp (binary_apply hab _ ▸ h)
    cases hr
    exact Range.subtract_holds hw h hx hy hv
  | multiply =>
    obtain ⟨r', h, hr⟩ := map_eq_ok.mp (binary_apply hab _ ▸ h)
    cases hr
    exact Range.multiply_holds hw h hx hy hv
  | divide =>
    rw [binary_apply hab] at h
    simp only [BinaryOp.run?] at hv
    split at hv
    · cases hv
    · exact Range.divide_holds hw h hx hy (hax (nb hv)) (hay (nb hv)) ‹_› hv
  | modulo =>
    rw [binary_apply hab] at h
    simp only [BinaryOp.run?] at hv
    split at hv
    · cases hv
    · exact Range.modulo_holds hw h hx hy (hax (nb hv)) (hay (nb hv)) ‹_› hv
  | equals | notEquals | less | lessEquals | greater | greaterEquals =>
    obtain ⟨z, hz, answers⟩ := compared (by decide)
    cases hz.symm.trans h
    cases hv
    exact (answers _).mpr ⟨x, y, hx, hy, rfl⟩

end Transfer

/-- How the range of a unary operation is computed. -/
def UnaryOp.transfer : UnaryOp → Transfer
  | .negate => .negate
  | .not => .not

/-- **Unary operators are sound.** -/
theorem Transfer.unary_holds {t : Ty} {a r : Range} {x v : Int} {op : UnaryOp} (hw : t.Word)
    (h : op.transfer.apply t [a] = .ok (.ok r)) (hx : a.Holds x) (hv : op.run? t x = some v) :
    r.Holds v := by
  cases op with
  | negate =>
    obtain ⟨r', h, hr⟩ := map_eq_ok.mp h
    cases hr
    exact Range.negate_holds hw h hx hv
  | not =>
    cases h
    exact Range.not_holds hx hv

/-! ### Whole types and conversions -/

namespace Ty

variable {t : Ty} {v w : Int}

/-- A value of an integer type stands for itself. -/
theorem wrap_eq_self {low high : Int} (hw : t.Word) (hb : t.bounds? = some (low, high))
    (hv : t.Admits v) : t.wrap? v = some v := by
  obtain ⟨hl, hh⟩ := (admits_iff hb).mp hv
  obtain ⟨s, ht, hb⟩ := bounds_eq_some hb
  cases hk : s.kind <;> simp only [Scalar.bounds?_eq, hk, Option.some.injEq, Prod.mk.injEq,
    reduceCtorEq] at hb <;> simp only [wrap?, ht, hk, Option.some.injEq]
  case signedInt =>
    have hh := two_pow_half ((hw s ht).2 hk)
    exact Int.bmod_eq_of_le (by push_cast; omega) (by push_cast; omega)
  all_goals exact Int.emod_eq_of_lt (by omega) (by omega)

/-- Conversion takes the remainder, and for the upper half of a signed type the one below zero. -/
theorem wrap_eq_remainder {s : Scalar} (hw : t.Word) (ht : t.scalar? = some s)
    (h : t.wrap? v = some w) :
    w = if t.isSigned = true ∧ (2 : Int) ^ (s.size.toNat * 8) / 2 ≤ v % 2 ^ (s.size.toNat * 8)
      then v % 2 ^ (s.size.toNat * 8) - 2 ^ (s.size.toNat * 8) else v % 2 ^ (s.size.toNat * 8) := by
  rw [isSigned_eq ht]
  simp only [wrap?, ht] at h
  cases hk : s.kind <;> simp only [hk, Option.some.injEq, reduceCtorEq] at h
  case signedInt =>
    have hh := two_pow_half ((hw s ht).2 hk)
    rw [Int.bmod_def] at h
    push_cast at h
    simp only [beq_self_eq_true, true_and]
    split at h <;> split <;> omega
  all_goals simp [← h]

theorem bounds_of_wrap (h : t.wrap? v = some w) : ∃ low high, t.bounds? = some (low, high) := by
  unfold wrap? at h
  split at h
  · cases h
  case h_2 s ht =>
    cases hk : s.kind <;> simp only [hk, reduceCtorEq] at h <;>
      simp only [bounds?, ht, Option.bind_some, Scalar.bounds?_eq, hk]
    all_goals exact ⟨_, _, rfl⟩

theorem wrap_of_bounds {p : Int × Int} (h : t.bounds? = some p) (v : Int) :
    ∃ w, t.wrap? v = some w := by
  obtain ⟨s, ht, hb⟩ := bounds_eq_some h
  unfold wrap?
  rw [ht]
  cases hk : s.kind <;> simp [Scalar.bounds?_eq, hk] at hb ⊢

/-- A type with bounds has no booleans. -/
theorem not_bool_of_bounds {p : Int × Int} (h : t.bounds? = some p) : t.isBool = false := by
  obtain ⟨s, ht, hb⟩ := bounds_eq_some h
  cases hk : s.kind <;> simp [Scalar.bounds?_eq, hk] at hb <;> simp [isBool, hasKind, ht, hk]

end Ty

namespace Structs

variable {s : Structs} {t : Ty} {range r : Range} {v w : Int}

/-- The widest range of a scalar type holds all its values. -/
theorem rangeOf_holds (s : Structs) (hw : t.Word) (hv : t.Admits v) : (s.rangeOf t).Holds v := by
  obtain ⟨c, ht, hv⟩ := hv
  cases t with
  | scalar f c' =>
    obtain rfl : c' = c := Option.some.inj ht
    have hb : (Ty.scalar .none c').bounds? = c'.bounds? := rfl
    have hw : (Ty.scalar .none c').Word := hw
    show c'.range.Holds v
    unfold Scalar.range
    unfold Scalar.Admits at hv
    cases hk : c'.kind with
    | void => simp [Scalar.bounds?_eq, hk] at hv
    | bool =>
      simp only [Scalar.bounds?_eq, hk] at hv
      exact Bools.holds_any hv.2
    | signedInt | unsignedInt | char =>
      cases hc : c'.bounds? with
      | none => simp [Scalar.bounds?_eq, hk] at hc
      | some p =>
        obtain ⟨low, high⟩ := p
        simp only [hc] at hv
        exact Range.ofBounds_holds hw (hb.trans hc) le_rfl le_rfl hv.1 hv.2
  | pointer _ _ _ | function _ _ _ _ _ | struct _ _ => cases ht

/-- A single value that does not fit a type is converted to what remains of it there. -/
theorem convertedRange_single (hw : t.Word) (hr : range.bounds? = some (v, v))
    (hf : range.fits t = false) (hc : t.wrap? v = some w) :
    s.convertedRange range t = Range.literal t w := by
  obtain ⟨low, high, hb⟩ := Ty.bounds_of_wrap hc
  obtain ⟨c, ht, -⟩ := Ty.bounds_eq_some hb
  have hsize : s.size t = .ok c.size := by
    cases t <;> cases ht
    rfl
  rw [Ty.wrap_eq_remainder hw ht hc]
  simp only [convertedRange, hr, hf, Bool.false_eq_true, if_false, if_true, hsize, ok_bind,
    intPow_eq]
  split <;> rfl

/-- **Integer conversions are sound.** -/
theorem convertedRange_holds (hw : t.Word) (h : s.convertedRange range t = .ok r)
    (hv : range.Holds v) (hc : t.wrap? v = some w) : r.Holds w := by
  obtain ⟨lo, hi, hr, hl, hh⟩ := hv.bounds
  obtain ⟨low, high, hb⟩ := Ty.bounds_of_wrap hc
  have hbool := Ty.not_bool_of_bounds hb
  have h' := h
  simp only [convertedRange, hr] at h
  split at h
  case isTrue hf =>
    -- the range fits, so the conversion changes nothing
    simp only [Range.fits, hbool, hr, hb, Bool.false_eq_true, if_false, Bool.and_eq_true,
      decide_eq_true_eq] at hf
    have hv := (Ty.admits_iff hb).mpr ⟨hf.1.trans hl, hh.trans hf.2⟩
    obtain rfl : v = w := Option.some.inj ((Ty.wrap_eq_self hw hb hv).symm.trans hc)
    exact Range.integer_holds hw h hl hh
  case isFalse hf =>
    split at h
    case isFalse => cases h; exact rangeOf_holds s hw (Ty.admits_wrap hw hc)
    case isTrue he =>
      obtain rfl : v = lo := by omega
      obtain rfl := he
      exact Range.literal_holds hw hbool (convertedRange_single hw hr (by simpa using hf) hc ▸ h')

end Structs

end Gauge
