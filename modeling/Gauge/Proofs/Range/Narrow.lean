import Gauge.Proofs.Range.Order
import Gauge.Proofs.Range.Tight

/-!
# Proofs — narrower ranges have narrower results

Two runs of an operation are compared, one on ranges within those of the other.  Its exact results
are then among those of the other, so their hull is inside (`Hull.narrows`), and what a type makes
of a narrower hull is no wider (`BinaryOp.settle_narrows`): where the wider bounds fit the type or
lie in one turn of it, so do the narrower ones.  Only a division can find out more than a range:
that nothing but zero is left to divide by.

Main statement: `ranges_narrow`.
-/

namespace Gauge

/-- An answer on narrower operands: a range within that of the other answer, or that the divisor can
be nothing but zero; and a violation stays one. -/
structure Transferred.Narrows (divisor : Range) (x y : Transferred) : Prop where
  range : ∀ r', y = .ok (.ok r') → (∃ r, x = .ok (.ok r) ∧ r.Within r') ∨
    (∃ violation, x = .ok (.error violation)) ∧ ∀ n, divisor.Holds n ↔ n = 0
  violation : ∀ violation, y = .ok (.error violation) → x = .ok (.error violation)

theorem Hull.narrows {S S' : Set Int} {lo hi lo' hi' : Int} (h : Hull S lo hi)
    (h' : Hull S' lo' hi') (hs : S ⊆ S') : lo' ≤ lo ∧ hi ≤ hi' :=
  ⟨h'.1.2 (hs h.1.1), h'.2.2 (hs h.2.1)⟩

theorem BinaryOp.results_mono {op : BinaryOp} {a a' b b' : Range} (ha : a.Within a')
    (hb : b.Within b') : op.results a b ⊆ op.results a' b' := by
  rintro z ⟨x, y, hx, hy, hz⟩
  exact ⟨x, y, ha.holds hx, hb.holds hy, hz⟩

/-! ### What a type makes of narrower bounds -/

namespace Range

/-- Within one turn of a type the remainders are in the order of the numbers. -/
theorem emod_le_emod {m lo hi : Int} (h : lo / m = hi / m) (hle : lo ≤ hi) : lo % m ≤ hi % m := by
  rw [Int.emod_def, Int.emod_def, h]
  omega

/-- Integers of one type are compared by their bounds. -/
theorem integer_within {t : Ty} {r r' : Range} {lo hi lo' hi' : Int} (hw : t.Word)
    (h : integer t lo hi = .ok r) (h' : integer t lo' hi' = .ok r') (hlo : lo' ≤ lo)
    (hhi : hi ≤ hi') : r.Within r' := by
  obtain ⟨low, high, hb, hl, hle, hh, rfl⟩ := integer_eq_ok h
  obtain ⟨low', high', hb', hl', hle', hh', rfl⟩ := integer_eq_ok h'
  obtain ⟨rfl, rfl⟩ := Prod.mk.inj (Option.some.inj (hb.symm.trans hb'))
  unfold ofBounds
  split
  · next hs =>
    obtain ⟨h₁, h₂⟩ := Ty.signed_bounds_word hw hb hs
    rw [Int.bmod_eq_of_le (by omega) (by omega), Int.bmod_eq_of_le (by omega) (by omega),
      Int.bmod_eq_of_le (by omega) (by omega), Int.bmod_eq_of_le (by omega) (by omega)]
    exact ⟨hlo, hhi⟩
  · next hs =>
    have hs : t.isSigned = false := by simpa using hs
    obtain ⟨rfl, -⟩ := Ty.unsigned_bounds hb hs
    have := Ty.unsigned_bounds_word hw hb hs
    simp only [Within]
    omega

section Types

variable {t : Ty} {r r' : Range} {low high lo hi lo' hi' : Int} (hw : t.Word)
  (hb : t.bounds? = some (low, high))

include hw hb

/-- Any integers of a type lie within a range of the whole type. -/
theorem integer_narrows (h : integer t lo' hi' = .ok r') (hlo : lo' ≤ lo) (hle : lo ≤ hi)
    (hhi : hi ≤ hi') : ∃ r, integer t lo hi = .ok r ∧ r.Within r' := by
  obtain ⟨_, _, hb', hl, -, hh, -⟩ := integer_eq_ok h
  obtain ⟨rfl, rfl⟩ := Prod.mk.inj (Option.some.inj (hb.symm.trans hb'))
  obtain ⟨r, hr, -⟩ := integer_suits (s := .empty) hw hb (hl.trans hlo) hle (hhi.trans hh)
  exact ⟨r, hr, integer_within hw hr h hlo hhi⟩

theorem exactOrFull_narrows (h : exactOrFull t lo' hi' = .ok r') (hlo : lo' ≤ lo) (hle : lo ≤ hi)
    (hhi : hi ≤ hi') : ∃ r, exactOrFull t lo hi = .ok r ∧ r.Within r' := by
  obtain ⟨h₁, h₂⟩ := Ty.low_le_high hb
  simp only [exactOrFull, resultBounds, hb, ok_bind] at h ⊢
  split at h
  · rw [if_pos (by omega)]
    exact integer_narrows hw hb h hlo hle hhi
  · split
    · exact integer_narrows hw hb h (by omega) hle (by omega)
    · exact ⟨r', h, within_refl r'⟩

/-- Between two numbers of one turn of a type, all lie in that turn. -/
theorem wrapped_narrows (hs : t.isSigned = false) (h : wrapped t lo' hi' = .ok r') (hlo : lo' ≤ lo)
    (hle : lo ≤ hi) (hhi : hi ≤ hi') : ∃ r, wrapped t lo hi = .ok r ∧ r.Within r' := by
  obtain ⟨rfl, hh⟩ := Ty.unsigned_bounds hb hs
  have q₁ : lo' / (high + 1) ≤ lo / (high + 1) := Int.ediv_le_ediv (by omega) hlo
  have q₂ : lo / (high + 1) ≤ hi / (high + 1) := Int.ediv_le_ediv (by omega) hle
  have q₃ : hi / (high + 1) ≤ hi' / (high + 1) := Int.ediv_le_ediv (by omega) hhi
  simp only [wrapped, resultBounds, hb, ok_bind] at h ⊢
  split at h
  · next same =>
    rw [if_pos (by omega)]
    exact integer_narrows hw hb h (emod_le_emod (by omega) hlo) (emod_le_emod (by omega) hle)
      (emod_le_emod (by omega) hhi)
  · split
    · next same =>
      have hl := Int.emod_nonneg lo (b := high + 1) (by omega)
      have hh := Int.emod_lt_of_pos hi (b := high + 1) (by omega)
      exact integer_narrows hw hb h hl (emod_le_emod same hle) (by omega)
    · exact ⟨r', h, within_refl r'⟩

theorem arithmetic_narrows (h : arithmetic t lo' hi' = .ok r') (hlo : lo' ≤ lo) (hle : lo ≤ hi)
    (hhi : hi ≤ hi') : ∃ r, arithmetic t lo hi = .ok r ∧ r.Within r' := by
  unfold arithmetic at h ⊢
  split at h
  · next hs =>
    rw [if_pos hs]
    exact exactOrFull_narrows hw hb h hlo hle hhi
  · next hs =>
    rw [if_neg hs]
    exact wrapped_narrows hw hb (by simpa using hs) h hlo hle hhi

end Types

end Range

theorem BinaryOp.settle_narrows {op : BinaryOp} {t : Ty} {r' : Range} {low high lo hi lo' hi' : Int}
    (hw : t.Word) (hb : t.bounds? = some (low, high)) (h : op.settle t lo' hi' = .ok r')
    (hlo : lo' ≤ lo) (hle : lo ≤ hi) (hhi : hi ≤ hi') :
    ∃ r, op.settle t lo hi = .ok r ∧ r.Within r' := by
  cases op with
  | add | subtract => exact Range.arithmetic_narrows hw hb h hlo hle hhi
  | _ => exact Range.exactOrFull_narrows hw hb h hlo hle hhi

/-! ### Operators with an integer result -/

namespace Range

variable {s : Structs} {t : Ty} {a a' b b' r r' : Range} {low high lo hi : Int}

/-- A range that can hold nothing but zero is known to be zero. -/
theorem literal_zero (hb : b.bounds? = some (lo, hi)) (hle : lo ≤ hi)
    (h : ∀ n, b.Holds n → n = 0) : b.literalValue? = some 0 := by
  by_contra hz
  obtain ⟨hlo, hhi⟩ := holds_bounds hb hle
  have := bounds_ne_zero hz hb
  have := h lo hlo
  have := h hi hhi
  omega

/-- A remainder by a divisor that is not known to be zero. -/
theorem modulo_narrows (hw : t.Word) (hbt : t.bounds? = some (low, high)) (ha : a.Suits s t)
    (ha' : a'.Suits s t) (hb : b.Suits s t) (hb' : b'.Suits s t) (haa : a.Within a')
    (hbb : b.Within b') (hz : b.literalValue? ≠ some 0) (hz' : b'.literalValue? ≠ some 0)
    (h : a'.modulo t b' = .ok (.ok r')) : ∃ r, a.modulo t b = .ok (.ok r) ∧ r.Within r' := by
  obtain ⟨aMin', aMax', ha', hab', halow', hale', hahigh'⟩ := ha'.operand hbt
  obtain ⟨bMin', bMax', hb', hbb', hblow', hble', hbhigh'⟩ := hb'.operand hbt
  obtain ⟨aMin, aMax, hab, haMin, haMax⟩ := haa.bounds ha'
  obtain ⟨bMin, bMax, hbb, hbMin, hbMax⟩ := hbb.bounds hb'
  have hale := ha.filled.bounds hab
  have hble := hb.filled.bounds hbb
  have nonzero := bounds_ne_zero hz hbb
  have nonzero' := bounds_ne_zero hz' hb'
  simp only [modulo, hab', hbb', ok_bind, if_neg hz'] at h
  simp only [modulo, operandBounds, hab, hbb, ok_bind, if_neg hz]
  cases hs : t.isSigned with
  | false =>
    obtain ⟨rfl, -⟩ := Ty.unsigned_bounds hbt hs
    simp only [hs, Bool.not_false, if_true] at h ⊢
    split at h
    · -- a dividend below the divisor stays as it is, and a narrower one is below it too
      obtain ⟨r'', h, heq⟩ := bind_eq_ok.mp h
      cases heq
      obtain ⟨r, hr, within⟩ := integer_narrows hw hbt h haMin hale haMax
      rw [if_pos (by omega), hr]
      exact ⟨r, rfl, within⟩
    · obtain ⟨r'', h, heq⟩ := bind_eq_ok.mp h
      cases heq
      split
      · obtain ⟨r, hr, within⟩ := integer_narrows hw hbt h (by omega) hale (by omega)
        rw [hr]
        exact ⟨r, rfl, within⟩
      · obtain ⟨r, hr, within⟩ := integer_narrows hw hbt h (le_refl 0)
          (by omega : (0 : Int) ≤ min aMax (bMax - 1)) (by omega)
        rw [hr]
        exact ⟨r, rfl, within⟩
  | true =>
    simp only [hs, Bool.not_true, Bool.false_eq_true, if_false] at h ⊢
    obtain ⟨r'', h, heq⟩ := bind_eq_ok.mp h
    cases heq
    -- the greatest divisor shrinks with its range, and the bounds on the remainder with it
    have size : max (bMin.natAbs : Int) bMax.natAbs ≤ max (bMin'.natAbs : Int) bMax'.natAbs := by
      omega
    have lower :
        (if aMin' < 0 then max aMin' (-(max (bMin'.natAbs : Int) bMax'.natAbs - 1)) else 0) ≤
          if aMin < 0 then max aMin (-(max (bMin.natAbs : Int) bMax.natAbs - 1)) else 0 := by
      split <;> split <;> omega
    have upper : (if 0 < aMax then min aMax (max (bMin.natAbs : Int) bMax.natAbs - 1) else 0) ≤
        if 0 < aMax' then min aMax' (max (bMin'.natAbs : Int) bMax'.natAbs - 1) else 0 := by
      split <;> split <;> omega
    obtain ⟨r, hr, within⟩ := exactOrFull_narrows hw hbt h lower (by split <;> split <;> omega)
      upper
    rw [hr]
    exact ⟨r, rfl, within⟩

/-- Bounds can only be settled on in a type that has some. -/
theorem bounds_of_exactOrFull (h : exactOrFull t lo hi = .ok r) :
    ∃ low high, t.bounds? = some (low, high) := by
  obtain ⟨⟨low, high⟩, hb, -⟩ := bind_eq_ok.mp h
  exact ⟨low, high, resultBounds_eq hb⟩

end Range

namespace Transfer

variable {s : Structs} {op : BinaryOp} {t u : Ty} {a a' b b' r r' : Range}

/-- Arithmetic has a range only in a type that has bounds. -/
theorem bounds_of_arithmetic (hop : op ∈ Builtin.arithmetic)
    (h : (Transfer.binary op).apply t [a, b] = .ok (.ok r)) :
    ∃ low high, t.bounds? = some (low, high) := by
  obtain ⟨aMin, aMax, bMin, bMax, ha, hb⟩ := bounds_of_apply h
  cases hbt : t.bounds? with
  | some x => exact ⟨x.1, x.2, rfl⟩
  | none =>
    have integer : ∀ lo hi, Range.integer t lo hi = .error (.integerRangeOf t.text) := by
      simp only [Range.integer, hbt, implies_true]
    have bounds : Range.resultBounds t = .error (.resultNotInteger t.text) := by
      simp only [Range.resultBounds, hbt]
    rw [binary_apply ha] at h
    cases op with
    | add | subtract | multiply =>
      obtain ⟨_, h, -⟩ := map_eq_ok.mp h
      simp only [Range.add, Range.subtract, Range.multiply, Range.operandBounds, ha, hb, ok_bind,
        Range.arithmetic, Range.exactOrFull, Range.wrapped, bounds] at h
      repeat' split at h
      all_goals cases h
    | divide | modulo =>
      simp only [binaryRange, Range.divide, Range.modulo, Range.operandBounds, ha, hb, ok_bind,
        Range.exactOrFull, integer, bounds] at h
      repeat' split at h
      all_goals cases h
    | _ => exact absurd hop (by decide)

/-- Dividing by nothing but zero is a violation. -/
theorem apply_zero {aMin aMax bMin bMax : Int} (ha : a.bounds? = some (aMin, aMax))
    (hb : b.bounds? = some (bMin, bMax)) (hz : b.literalValue? = some 0) :
    (Transfer.binary .divide).apply u [a, b] = .ok (.error .divisionByZero) ∧
      (Transfer.binary .modulo).apply u [a, b] = .ok (.error .moduloByZero) := by
  rw [binary_apply ha, binary_apply ha]
  exact ⟨Range.divide_zero ha hz hb, Range.modulo_zero ha hz hb⟩

section Narrower

variable (ha : a.Suits s t) (ha' : a'.Suits s t) (hb : b.Suits s t) (hb' : b'.Suits s t)
  (haa : a.Within a') (hbb : b.Within b')

include ha hb haa hbb

/-- What a comparison gives on some numbers it also gives on more. -/
theorem comparison_narrows (hop : op ∈ Builtin.equality ++ Builtin.ordering)
    (h : (Transfer.binary op).apply u [a', b'] = .ok (.ok r')) :
    ∃ r, (Transfer.binary op).apply u [a, b] = .ok (.ok r) ∧ r.Within r' := by
  obtain ⟨aMin', aMax', bMin', bMax', hab', hbb'⟩ := bounds_of_apply h
  obtain ⟨aMin, aMax, hab, -⟩ := haa.bounds hab'
  obtain ⟨bMin, bMax, hbb₀, -⟩ := hbb.bounds hbb'
  have hm := (Range.holds_bounds hab (ha.filled.bounds hab)).1
  have hn := (Range.holds_bounds hbb₀ (hb.filled.bounds hbb₀)).1
  obtain ⟨x, hx, exact_⟩ := comparison_exact u hop hm hn
  obtain ⟨y, hy, exact'⟩ := comparison_exact u hop (haa.holds hm) (hbb.holds hn)
  cases Except.ok.inj (hy.symm.trans h)
  refine ⟨.bools x, hx, Bools.within_iff.mpr fun v hv => ?_⟩
  obtain ⟨m, n, hm, hn, hrun⟩ := (exact_ v).mp hv
  exact (exact' v).mpr ⟨m, n, haa.holds hm, hbb.holds hn, hrun⟩

include ha' hb'

/-- The exact results on narrower ranges have a narrower hull. -/
theorem tight_narrows (hop : op ∈ BinaryOp.tight) (hw : t.Word)
    (hz : op = .divide → b.literalValue? ≠ some 0)
    (h : (Transfer.binary op).apply t [a', b'] = .ok (.ok r')) :
    ∃ r, (Transfer.binary op).apply t [a, b] = .ok (.ok r) ∧ r.Within r' := by
  have arithmetic : ∀ op ∈ BinaryOp.tight, op ∈ Builtin.arithmetic := by decide
  obtain ⟨low, high, hbt⟩ := bounds_of_arithmetic (arithmetic op hop) h
  obtain ⟨lo', hi', hull', hsettle'⟩ := binary_settled hop hw hbt ha' hb'
    fun hd => not_literal_zero h (.inl hd)
  obtain ⟨lo, hi, hull, hsettle⟩ := binary_settled hop hw hbt ha hb hz
  obtain ⟨r'', hr', heq⟩ := map_eq_ok.mp (hsettle'.symm.trans h)
  cases heq
  obtain ⟨hlo, hhi⟩ := hull.narrows hull' (BinaryOp.results_mono haa hbb)
  obtain ⟨r, hr, within⟩ := BinaryOp.settle_narrows hw hbt hr' hlo hull.le hhi
  exact ⟨r, by rw [hsettle, hr]; rfl, within⟩

/-- **Binary operators narrow.** -/
theorem binary_narrows (hw : t.Word) (hu : u = t ∨ op ∈ Builtin.equality ++ Builtin.ordering) :
    Transferred.Narrows b ((Transfer.binary op).apply u [a, b])
      ((Transfer.binary op).apply u [a', b']) := by
  constructor
  · intro r' h
    obtain ⟨aMin', aMax', bMin', bMax', hab', hbb'⟩ := bounds_of_apply h
    obtain ⟨aMin, aMax, hab, -⟩ := haa.bounds hab'
    obtain ⟨bMin, bMax, hbb₀, -⟩ := hbb.bounds hbb'
    cases op with
    | equals | notEquals | less | lessEquals | greater | greaterEquals =>
      exact .inl (comparison_narrows ha hb haa hbb (by decide) h)
    | add | subtract | multiply =>
      obtain rfl := hu.resolve_right (by decide)
      exact .inl (tight_narrows ha ha' hb hb' haa hbb (by decide) hw nofun h)
    | divide =>
      obtain rfl := hu.resolve_right (by decide)
      by_cases hz : b.literalValue? = some 0
      · exact .inr ⟨⟨_, (apply_zero hab hbb₀ hz).1⟩, fun n => Range.holds_iff_of_literal hz⟩
      · exact .inl (tight_narrows ha ha' hb hb' haa hbb (by decide) hw (fun _ => hz) h)
    | modulo =>
      obtain rfl := hu.resolve_right (by decide)
      by_cases hz : b.literalValue? = some 0
      · exact .inr ⟨⟨_, (apply_zero hab hbb₀ hz).2⟩, fun n => Range.holds_iff_of_literal hz⟩
      · obtain ⟨low, high, hbt⟩ := bounds_of_arithmetic (by decide) h
        have hz' := not_literal_zero h (.inr rfl)
        rw [binary_apply hab'] at h
        rw [binary_apply hab]
        exact .inl (Range.modulo_narrows hw hbt ha ha' hb hb' haa hbb hz hz' h)
  · intro violation h
    obtain ⟨aMin', aMax', bMin', bMax', hab', hbb'⟩ := bounds_of_apply h
    obtain ⟨aMin, aMax, hab, -⟩ := haa.bounds hab'
    obtain ⟨bMin, bMax, hbb₀, -⟩ := hbb.bounds hbb'
    obtain ⟨hop, only⟩ := binary_violation h
    have hz' := Range.literal_zero hbb' (hb'.filled.bounds hbb') fun n hn => (only n).mp hn
    have hz := Range.literal_zero hbb₀ (hb.filled.bounds hbb₀) fun n hn =>
      (only n).mp (hbb.holds hn)
    rcases hop with rfl | rfl
    · exact (apply_zero hab hbb₀ hz).1.trans ((apply_zero hab' hbb' hz').1.symm.trans h)
    · exact (apply_zero hab hbb₀ hz).2.trans ((apply_zero hab' hbb' hz').2.symm.trans h)

end Narrower

/-- **Unary operators narrow.** -/
theorem unary_narrows {op : UnaryOp} (hw : t.Word) (ha : a.Suits s t) (ha' : a'.Suits s t)
    (haa : a.Within a') {answer : Except Violation Range}
    (h : op.transfer.apply t [a'] = .ok answer) :
    ∃ r r', answer = .ok r' ∧ op.transfer.apply t [a] = .ok (.ok r) ∧ r.Within r' := by
  cases op with
  | negate =>
    obtain ⟨r', hr', rfl⟩ := map_eq_ok.mp h
    obtain ⟨low, high, hbt⟩ : ∃ low high, t.bounds? = some (low, high) := by
      obtain ⟨⟨aMin, aMax⟩, -, hr'⟩ := bind_eq_ok.mp hr'
      exact Range.bounds_of_exactOrFull hr'
    obtain ⟨lo, hi, hull, hsettle⟩ := Range.negate_settled hbt ha
    obtain ⟨lo', hi', hull', hsettle'⟩ := Range.negate_settled hbt ha'
    obtain ⟨r'', hr'', heq⟩ := map_eq_ok.mp (hsettle'.symm.trans h)
    obtain rfl := Except.ok.inj heq
    have mono : a.negations ⊆ a'.negations := by
      rintro z ⟨x, hx, hz⟩
      exact ⟨x, haa.holds hx, hz⟩
    obtain ⟨hlo, hhi⟩ := hull.narrows hull' mono
    obtain ⟨r, hr, within⟩ := Range.exactOrFull_narrows hw hbt hr'' hlo hull.le hhi
    exact ⟨r, r'', rfl, hsettle.trans (by rw [hr]; rfl), within⟩
  | not =>
    obtain rfl := Except.ok.inj h
    exact ⟨a.not, a'.not, rfl, rfl, haa.not⟩

end Transfer

/-! ### Conversions -/

namespace Structs

variable {s : Structs} {t d : Ty} {a a' r r' : Range}

/-- The integers of a range of a type lie within all of the type. -/
theorem integer_within_rangeOf {low high lo hi : Int} (hw : d.Word)
    (hb : d.bounds? = some (low, high)) (hlo : low ≤ lo) (hle : lo ≤ hi) (hhi : hi ≤ high) :
    ∃ r, Range.integer d lo hi = .ok r ∧ r.Within (s.rangeOf d) := by
  obtain ⟨full, hfull, -⟩ := Range.full_suits (s := s) hw hb
  rw [← Range.integer_full (s := s) hb hfull]
  exact Range.integer_narrows hw hb hfull hlo hle hhi

theorem rangeOf_bool (hd : d.isBool = true) : s.rangeOf d = .bools .any := by
  cases d with
  | scalar f c =>
    have hk : c.kind = .bool := by simpa [Ty.isBool, Ty.hasKind, Ty.scalar?] using hd
    show c.range = _
    rw [Scalar.range, hk]
  | _ => simp [Ty.isBool, Ty.hasKind, Ty.scalar?] at hd

/-- A single value that does not fit a type is converted to one that does. -/
theorem convertedRange_single_within {v lo : Int} (hw : d.Word) (hd : d.Admits v)
    (hb : a.bounds? = some (lo, lo)) (hf : a.fits d = false) :
    ∃ r, s.convertedRange a d = .ok r ∧ r.Within (s.rangeOf d) := by
  obtain ⟨c, hc, hadmits⟩ := hd
  cases hbd : d.bounds? with
  | some p =>
    obtain ⟨low, high⟩ := p
    obtain ⟨w, hwrap⟩ := Ty.wrap_of_bounds hbd lo
    obtain ⟨hl, hh⟩ := (Ty.admits_iff hbd).mp (Ty.admits_wrap hw hwrap)
    rw [convertedRange_single hw hb hf hwrap, Range.literal, Ty.not_bool_of_bounds hbd]
    exact integer_within_rangeOf hw hbd hl le_rfl hh
  | none =>
    cases d with
    | scalar f c' =>
      obtain rfl : c' = c := Option.some.inj hc
      have hcb : c'.bounds? = none := hbd
      obtain ⟨hk, -⟩ : c'.kind = .bool ∧ (v = 0 ∨ v = 1) := by
        simpa only [Scalar.Admits, hcb] using hadmits
      have hbool : (Ty.scalar f c').isBool = true := by
        simp [Ty.isBool, Ty.hasKind, Ty.scalar?, hk]
      have literal : ∀ n, Range.literal (.scalar f c') n = .ok (.bools (.exactly (n != 0))) :=
        fun n => by rw [Range.literal, if_pos hbool]
      simp only [convertedRange, hb, hf, Bool.false_eq_true, if_false, if_true, literal, size,
        ok_bind, rangeOf_bool hbool]
      split <;> exact ⟨_, rfl, Bools.within_any _⟩
    | _ => cases hc

/-- **Conversions narrow.** -/
theorem convertedRange_narrows {v : Int} (hw : d.Word) (hd : d.Admits v) (ha : a.Suits s t)
    (haa : a.Within a') (h : s.convertedRange a' d = .ok r') :
    ∃ r, s.convertedRange a d = .ok r ∧ r.Within r' := by
  cases hb' : a'.bounds? with
  | none =>
    have hb : a.bounds? = none := by
      have := haa.kind.2
      rwa [hb', Option.isSome_none, Option.isSome_eq_false_iff, Option.isNone_iff_eq_none] at this
    simp only [convertedRange, hb, hb'] at h ⊢
    exact ⟨r', h, Range.within_refl r'⟩
  | some p =>
    obtain ⟨lo', hi'⟩ := p
    obtain ⟨lo, hi, hb, hlo, hhi⟩ := haa.bounds hb'
    have hle := ha.filled.bounds hb
    have hbools := haa.kind.1
    by_cases same : lo' = hi'
    · -- nothing narrower is left than the single value
      have hsame : a.bounds? = a'.bounds? := by
        rw [hb, hb']
        congr 2 <;> omega
      have hfits : a.fits d = a'.fits d := by rw [Range.fits, Range.fits, hsame, hbools]
      have heq : s.convertedRange a d = s.convertedRange a' d := by
        rw [convertedRange, convertedRange, hsame, hfits]
      exact ⟨r', heq.trans h, Range.within_refl r'⟩
    · simp only [convertedRange, hb', if_neg same] at h
      split at h
      · next hf' =>
        obtain ⟨low, high, hbd, hlow, -, hhigh, -⟩ := Range.integer_eq_ok h
        have hf : a.fits d = true := by
          simp only [Range.fits, Ty.not_bool_of_bounds hbd, hb, hbd, Bool.false_eq_true, if_false,
            Bool.and_eq_true, decide_eq_true_eq]
          omega
        simp only [convertedRange, hb, if_pos hf]
        exact Range.integer_narrows hw hbd h hlo hle hhi
      · next hf' =>
        cases h
        by_cases hf : a.fits d = true
        · have hbool : d.isBool = false := by
            by_contra hbool
            rw [Range.fits, if_pos (by simpa using hbool)] at hf hf'
            exact hf' (hbools ▸ hf)
          simp only [convertedRange, hb, if_pos hf]
          simp only [Range.fits, hbool, hb, Bool.false_eq_true, if_false] at hf
          cases hbd : d.bounds? with
          | none => simp [hbd] at hf
          | some p =>
            simp only [hbd, Bool.and_eq_true, decide_eq_true_eq] at hf
            exact integer_within_rangeOf hw hbd hf.1 hle hf.2
        · by_cases single : lo = hi
          · obtain rfl := single
            exact convertedRange_single_within hw hd hb (by simpa using hf)
          · simp only [convertedRange, hb, if_neg hf, if_neg single]
            exact ⟨_, rfl, Range.within_refl _⟩

end Structs

/-! ### Logical operators -/

namespace Bools

variable {x x' y y' : Bools}

theorem and_within (hne : x.Nonempty) (hx : x.Within x') (hy : y.Within y') :
    (x.and y).Within (x'.and y') := by
  obtain ⟨f, t⟩ := x
  obtain ⟨f', t'⟩ := x'
  cases f <;> cases t <;> cases f' <;> cases t' <;>
    simp_all [and, exactly, Within, Nonempty]

theorem or_within (hne : x.Nonempty) (hx : x.Within x') (hy : y.Within y') :
    (x.or y).Within (x'.or y') := by
  obtain ⟨f, t⟩ := x
  obtain ⟨f', t'⟩ := x'
  cases f <;> cases t <;> cases f' <;> cases t' <;>
    simp_all [or, exactly, Within, Nonempty]

end Bools

/-- **Narrower ranges have narrower results.**  On ranges within those of another run, an operator
answers with a range within the other's, unless it finds out that nothing but zero is left to divide
by; and where the other run found that out, so does this one.  Conversions to a type that has
values, and the operators with one operand or on booleans, always answer with a narrower range. -/
theorem ranges_narrow (s : Structs) :
    (∀ (op : BinaryOp) (t u : Ty) (a a' b b' : Range), t.Word →
      (u = t ∨ op ∈ Builtin.equality ++ Builtin.ordering) →
      a.Suits s t → a'.Suits s t → b.Suits s t → b'.Suits s t → a.Within a' → b.Within b' →
      Transferred.Narrows b ((Transfer.binary op).apply u [a, b])
        ((Transfer.binary op).apply u [a', b'])) ∧
    (∀ (op : UnaryOp) (t : Ty) (a a' : Range) (answer : Except Violation Range), t.Word →
      a.Suits s t → a'.Suits s t → a.Within a' → op.transfer.apply t [a'] = .ok answer →
      ∃ r r', answer = .ok r' ∧ op.transfer.apply t [a] = .ok (.ok r) ∧ r.Within r') ∧
    (∀ (t d : Ty) (v : Int) (a a' r' : Range), d.Word → d.Admits v → a.Suits s t → a.Within a' →
      s.convertedRange a' d = .ok r' → ∃ r, s.convertedRange a d = .ok r ∧ r.Within r') ∧
    ∀ x x' y y' : Bools, x.Nonempty → x.Within x' → y.Within y' →
      (x.and y).Within (x'.and y') ∧ (x.or y).Within (x'.or y') := by
  refine ⟨?_, ?_, ?_, ?_⟩
  · intro op t u a a' b b' hw hu ha ha' hb hb' haa hbb
    exact Transfer.binary_narrows ha ha' hb hb' haa hbb hw hu
  · intro op t a a' answer hw ha ha' haa h
    exact Transfer.unary_narrows hw ha ha' haa h
  · intro t d v a a' r' hw hd ha haa h
    exact Structs.convertedRange_narrows hw hd ha haa h
  · intro x x' y y' hne hx hy
    exact ⟨Bools.and_within hne hx hy, Bools.or_within hne hx hy⟩

/-- A divisor of at most three that turns out to be zero, and a number up to three hundred that is
known to be three hundred: of the bytes it is converted to, one is left. -/
theorem ranges_narrow_divisor :
    Transferred.Narrows (.unsigned 0 0)
      ((Transfer.binary .divide).apply Builtin.u8 [.unsigned 4 8, .unsigned 0 0])
      ((Transfer.binary .divide).apply Builtin.u8 [.unsigned 0 9, .unsigned 0 3]) ∧
    ∃ r, Structs.empty.convertedRange (.unsigned 300 300) Builtin.u8 = .ok r ∧
      r.Within (.unsigned 0 255) := by
  have bytes : ∀ lo hi : Nat, lo ≤ hi → hi ≤ 255 → (Range.unsigned lo hi).Suits .empty Builtin.u8 :=
    fun lo hi hle hhi => ⟨lo, hi, rfl, 0, 255, rfl, by omega, by omega, by omega⟩
  have words : (Range.unsigned 300 300).Suits .empty Builtin.u16 :=
    ⟨300, 300, rfl, 0, 65535, rfl, by decide, by decide, by decide⟩
  have word : Builtin.u8.Word := Builtin.word_of_mem (by decide)
  obtain ⟨binary, -, converted, -⟩ := ranges_narrow .empty
  refine ⟨?_, ?_⟩
  · exact binary .divide Builtin.u8 Builtin.u8 _ _ _ _ word (.inl rfl)
      (bytes 4 8 (by decide) (by decide)) (bytes 0 9 (by decide) (by decide))
      (bytes 0 0 (by decide) (by decide)) (bytes 0 3 (by decide) (by decide))
      ⟨by decide, by decide⟩ ⟨by decide, by decide⟩
  · exact converted Builtin.u16 Builtin.u8 0 _ (.unsigned 0 300) _ word
      ⟨_, rfl, by decide, by decide⟩ words ⟨by decide, by decide⟩ rfl

/-- The bounds of a sum in a type of nine bytes are cut to eight, so that a wide sum has a range
without the narrower one.  And a single number is no value of `Void`, though any range becomes its
only one. -/
theorem ranges_widen :
    let wide := Builtin.scalar "U72" .unsignedInt 9
    let sum (a b : Range) := (Transfer.binary .add).apply wide [a, b]
    ((∀ lo hi : Nat, lo ≤ hi → hi < 2 ^ 64 → (Range.unsigned lo hi).Suits .empty wide) ∧
      (Range.unsigned 5 5).Within (.unsigned 0 (2 ^ 64 - 1)) ∧
      (Range.unsigned 0 0).Within (.unsigned 0 1) ∧
      ¬ Transferred.Narrows (.unsigned 0 0) (sum (.unsigned 5 5) (.unsigned 0 0))
        (sum (.unsigned 0 (2 ^ 64 - 1)) (.unsigned 0 1))) ∧
    Structs.empty.convertedRange (.unsigned 0 5) Builtin.void = .ok .void ∧
      Structs.empty.convertedRange (.unsigned 3 3) Builtin.void =
        .error (.integerRangeOf "Void") := by
  intro wide sum
  have narrow : sum (.unsigned 5 5) (.unsigned 0 0) = .ok (.ok (.unsigned 5 5)) := rfl
  have cut : sum (.unsigned 0 (2 ^ 64 - 1)) (.unsigned 0 1) = .ok (.ok (.unsigned 0 0)) := rfl
  refine ⟨⟨?_, ⟨by decide, by decide⟩, ⟨by decide, by decide⟩, fun h => ?_⟩, rfl, rfl⟩
  · exact fun lo hi hle hh => ⟨lo, hi, rfl, 0, 2 ^ 72 - 1, rfl, by omega, by omega, by omega⟩
  · rcases h.range _ cut with ⟨r, hr, within⟩ | ⟨⟨violation, hv⟩, -⟩
    · cases narrow.symm.trans hr
      exact absurd within.2 (by decide)
    · cases narrow.symm.trans hv

end Gauge
