import Mathlib.Order.Bounds.Basic
import Gauge.Proofs.Range.Suits

/-!
# Proofs — the least and the greatest result

An operation has a set of exact results on the numbers of two ranges (`BinaryOp.results`).  Sums,
differences, products, quotients and negations are bounded by the least and the greatest of them
(`Hull`), and the rest is up to the type (`Transfer.binary_settled`).  So the operators are defined
on ranges of their operands' types, and what comes out suits the type of the result
(`Builtin.binary_suits`, `Builtin.unary_suits`).
-/

namespace Gauge

/-- What an operation gives on two numbers, before a type limits it. -/
def BinaryOp.outcome? (x y : Int) : BinaryOp → Option Int
  | .add => some (x + y)
  | .subtract => some (x - y)
  | .multiply => some (x * y)
  | .divide => if y = 0 then none else some (x.tdiv y)
  | .modulo => if y = 0 then none else some (x.tmod y)
  | _ => none

/-- The exact results of an operation on the numbers of two ranges. -/
def BinaryOp.results (op : BinaryOp) (a b : Range) : Set Int :=
  {z | ∃ x y, a.Holds x ∧ b.Holds y ∧ op.outcome? x y = some z}

/-- The numbers of a set reach from `lo` to `hi`, and these two are among them. -/
def Hull (S : Set Int) (lo hi : Int) : Prop := IsLeast S lo ∧ IsGreatest S hi

/-- What a type makes of exact results from `lo` to `hi`: sums and differences may wrap around. -/
def BinaryOp.settle (t : Ty) (lo hi : Int) : BinaryOp → Except Fault Range
  | .add | .subtract => Range.arithmetic t lo hi
  | _ => Range.exactOrFull t lo hi

/-- The operations whose ranges start and end with a result. -/
def BinaryOp.tight : List BinaryOp := [.add, .subtract, .multiply, .divide]

theorem hull_of_mem {S : Set Int} {lo hi : Int} (hlo : lo ∈ S) (hhi : hi ∈ S)
    (h : ∀ z ∈ S, lo ≤ z ∧ z ≤ hi) : Hull S lo hi :=
  ⟨⟨hlo, fun z hz => (h z hz).1⟩, hhi, fun z hz => (h z hz).2⟩

theorem Hull.le {S : Set Int} {lo hi : Int} (h : Hull S lo hi) : lo ≤ hi := h.1.2 h.2.1

theorem BinaryOp.settle_suits {op : BinaryOp} {s : Structs} {t : Ty} {low high lo hi : Int}
    (hw : t.Word) (hb : t.bounds? = some (low, high)) (hle : lo ≤ hi) :
    ∃ r, op.settle t lo hi = .ok r ∧ r.Suits s t := by
  cases op with
  | add | subtract => exact Range.arithmetic_suits hw hb hle
  | _ => exact Range.exactOrFull_suits hw hb hle

/-! ### The least and the greatest result -/

namespace Range

variable {t : Ty} {a b : Range} {aMin aMax bMin bMax low high : Int}

theorem foldl_choice_mem {f : Int → Int → Int} (choice : ∀ k n, f k n = k ∨ f k n = n)
    (ns : List Int)
    (k : Int) : ns.foldl f k = k ∨ ns.foldl f k ∈ ns := by
  induction ns generalizing k with
  | nil => exact .inl rfl
  | cons n ns ih =>
    rw [List.foldl_cons]
    rcases ih (f k n) with h | h
    · rcases choice k n with hk | hn
      · exact .inl (h.trans hk)
      · exact .inr (by rw [h, hn]; exact (.head _))
    · exact .inr (.tail _ h)

/-- The extremes of some 64-bit numbers are among them. -/
theorem extremes_mem {ns : List Int} (hne : ns ≠ []) (h : ∀ n ∈ ns, n.natAbs ≤ 2 ^ 64) :
    (extremes ns).1 ∈ ns ∧ (extremes ns).2 ∈ ns := by
  obtain ⟨n, hn⟩ := List.exists_mem_of_ne_nil ns hne
  have size := h n hn
  have start : Int.pow 2 127 = 170141183460469231731687303715884105728 := by decide
  have least := foldl_min_le (Int.pow 2 127 - 1) n hn
  have greatest := le_foldl_max (-Int.pow 2 127) n hn
  constructor
  · rcases foldl_choice_mem min_choice ns (Int.pow 2 127 - 1) with he | he
    · rw [he] at least
      omega
    · exact he
  · rcases foldl_choice_mem max_choice ns (-Int.pow 2 127) with he | he
    · rw [he] at greatest
      omega
    · exact he

section Results

variable (ha : a.bounds? = some (aMin, aMax)) (hale : aMin ≤ aMax)
  (hb : b.bounds? = some (bMin, bMax)) (hble : bMin ≤ bMax)

include ha hale hb hble

/-- The results of an operation, in terms of the bounds. -/
theorem mem_results_iff {op : BinaryOp} {z : Int} :
    z ∈ op.results a b ↔
      ∃ x y, (aMin ≤ x ∧ x ≤ aMax) ∧ (bMin ≤ y ∧ y ≤ bMax) ∧ op.outcome? x y = some z := by
  simp only [BinaryOp.results, Set.mem_ofPred_eq, holds_iff_bounds ha hale,
    holds_iff_bounds hb hble]

theorem add_hull : Hull (BinaryOp.add.results a b) (aMin + bMin) (aMax + bMax) := by
  have mem : ∀ z, z ∈ BinaryOp.add.results a b ↔ _ := fun _ => mem_results_iff ha hale hb hble
  refine hull_of_mem ((mem _).mpr ⟨aMin, bMin, by omega, by omega, rfl⟩)
    ((mem _).mpr ⟨aMax, bMax, by omega, by omega, rfl⟩) fun z hz => ?_
  obtain ⟨x, y, hx, hy, h⟩ := (mem z).mp hz
  obtain rfl : x + y = z := Option.some.inj h
  omega

theorem subtract_hull : Hull (BinaryOp.subtract.results a b) (aMin - bMax) (aMax - bMin) := by
  have mem : ∀ z, z ∈ BinaryOp.subtract.results a b ↔ _ := fun _ => mem_results_iff ha hale hb hble
  refine hull_of_mem ((mem _).mpr ⟨aMin, bMax, by omega, by omega, rfl⟩)
    ((mem _).mpr ⟨aMax, bMin, by omega, by omega, rfl⟩) fun z hz => ?_
  obtain ⟨x, y, hx, hy, h⟩ := (mem z).mp hz
  obtain rfl : x - y = z := Option.some.inj h
  omega

/-- The extremes of a product stand at the corners. -/
theorem multiply_hull :
    Hull (BinaryOp.multiply.results a b)
      (min (min (aMin * bMin) (aMin * bMax)) (min (aMax * bMin) (aMax * bMax)))
      (max (max (aMin * bMin) (aMin * bMax)) (max (aMax * bMin) (aMax * bMax))) := by
  have mem : ∀ z, z ∈ BinaryOp.multiply.results a b ↔ _ := fun _ => mem_results_iff ha hale hb hble
  have corner : ∀ z, z = aMin * bMin ∨ z = aMin * bMax ∨ z = aMax * bMin ∨ z = aMax * bMax →
      z ∈ BinaryOp.multiply.results a b := by
    rintro z (rfl | rfl | rfl | rfl)
    · exact (mem _).mpr ⟨aMin, bMin, by omega, by omega, rfl⟩
    · exact (mem _).mpr ⟨aMin, bMax, by omega, by omega, rfl⟩
    · exact (mem _).mpr ⟨aMax, bMin, by omega, by omega, rfl⟩
    · exact (mem _).mpr ⟨aMax, bMax, by omega, by omega, rfl⟩
  refine hull_of_mem (corner _ (by omega)) (corner _ (by omega)) fun z hz => ?_
  obtain ⟨x, y, hx, hy, h⟩ := (mem z).mp hz
  obtain rfl : x * y = z := Option.some.inj h
  have hxy := mul_between hx.1 hx.2 y
  have hmin := mul_between hy.1 hy.2 aMin
  have hmax := mul_between hy.1 hy.2 aMax
  rw [Int.mul_comm bMin, Int.mul_comm bMax, Int.mul_comm y] at hmin hmax
  omega

/-- The quotients by the divisors of a range, zero left out. -/
theorem mem_quotient_results {z : Int} : z ∈ BinaryOp.divide.results a b ↔
    ∃ x y, (aMin ≤ x ∧ x ≤ aMax) ∧ (bMin ≤ y ∧ y ≤ bMax) ∧ y ≠ 0 ∧ x.tdiv y = z := by
  have quotient : ∀ x y : Int, BinaryOp.divide.outcome? x y = some z ↔ y ≠ 0 ∧ x.tdiv y = z := by
    intro x y
    simp only [BinaryOp.outcome?]
    split <;> simp [*]
  simp only [mem_results_iff ha hale hb hble, quotient]

/-- The extreme quotients are found at the corners of each sign of the divisor. -/
theorem divide_hull (hz : bMin ≠ 0 ∨ bMax ≠ 0) (hl : -2 ^ 64 ≤ aMin) (hh : aMax ≤ 2 ^ 64) :
    Hull (BinaryOp.divide.results a b) (extremes (quotients aMin aMax bMin bMax)).1
      (extremes (quotients aMin aMax bMin bMax)).2 := by
  have mem := fun z => mem_quotient_results ha hale hb hble (z := z)
  have corner : ∀ q ∈ quotients aMin aMax bMin bMax,
      q.natAbs ≤ 2 ^ 64 ∧ q ∈ BinaryOp.divide.results a b := by
    intro q hq
    obtain ⟨d, hd, hq⟩ := mem_quotients.mp hq
    have hd : (bMin ≤ d ∧ d ≤ bMax) ∧ d ≠ 0 := by
      unfold Corner at hd
      omega
    rcases hq with rfl | rfl
    · have := Int.natAbs_tdiv_le_natAbs aMin d
      exact ⟨by omega, (mem _).mpr ⟨aMin, d, by omega, hd.1, hd.2, rfl⟩⟩
    · have := Int.natAbs_tdiv_le_natAbs aMax d
      exact ⟨by omega, (mem _).mpr ⟨aMax, d, by omega, hd.1, hd.2, rfl⟩⟩
  have hne : quotients aMin aMax bMin bMax ≠ [] := by
    rcases (by omega : bMin ≤ -1 ∨ 1 ≤ bMax) with h | h
    · exact List.ne_nil_of_mem (mem_quotients.mpr ⟨bMin, .inl ⟨h, .inl rfl⟩, .inl rfl⟩)
    · exact List.ne_nil_of_mem (mem_quotients.mpr ⟨bMax, .inr ⟨h, .inr rfl⟩, .inl rfl⟩)
  obtain ⟨hmin, hmax⟩ := extremes_mem hne fun q hq => (corner q hq).1
  refine hull_of_mem (corner _ hmin).2 (corner _ hmax).2 fun z hz => ?_
  obtain ⟨x, y, hx, hy, h₀, rfl⟩ := (mem z).mp hz
  obtain ⟨⟨q, hq, hlo⟩, q', hq', hhi⟩ := quotients_between hx.1 hx.2 hy.1 hy.2 h₀
  exact ⟨(foldl_min_le _ q hq).trans hlo, hhi.trans (le_foldl_max _ q' hq')⟩

/-- Without sign the extreme quotients have the extreme divisors. -/
theorem divide_hull_unsigned (hz : bMin ≠ 0 ∨ bMax ≠ 0) (hl : 0 ≤ aMin) (hl' : 0 ≤ bMin) :
    Hull (BinaryOp.divide.results a b) (aMin.tdiv bMax) (aMax.tdiv (max bMin 1)) := by
  have mem := fun z => mem_quotient_results ha hale hb hble (z := z)
  refine hull_of_mem ((mem _).mpr ⟨aMin, bMax, by omega, by omega, by omega, rfl⟩)
    ((mem _).mpr ⟨aMax, max bMin 1, by omega, by omega, by omega, rfl⟩) fun z hz => ?_
  obtain ⟨x, y, hx, hy, h₀, rfl⟩ := (mem z).mp hz
  constructor
  · calc aMin.tdiv bMax ≤ aMin.tdiv y := tdiv_anti hl (by omega) hy.2
      _ ≤ x.tdiv y := Int.tdiv_le_tdiv (by omega) hx.1
  · calc x.tdiv y ≤ aMax.tdiv y := Int.tdiv_le_tdiv (by omega) hx.2
      _ ≤ aMax.tdiv (max bMin 1) := tdiv_anti (by omega) (by omega) (by omega)

end Results

/-- A division by nothing but zero is found out. -/
theorem divide_zero (ha : a.bounds? = some (aMin, aMax)) (hz : b.literalValue? = some 0)
    (hb : b.bounds? = some (bMin, bMax)) : a.divide t b = .ok (.error .divisionByZero) := by
  simp only [divide, operandBounds, ha, hb, ok_bind, if_pos hz]
  rfl

theorem modulo_zero (ha : a.bounds? = some (aMin, aMax)) (hz : b.literalValue? = some 0)
    (hb : b.bounds? = some (bMin, bMax)) : a.modulo t b = .ok (.error .moduloByZero) := by
  simp only [modulo, operandBounds, ha, hb, ok_bind, if_pos hz]
  rfl

/-- A division whose divisor is not known to be zero bounds its exact results. -/
theorem divide_settled (hw : t.Word) (hbt : t.bounds? = some (low, high)) {s : Structs}
    (ha : a.Suits s t) (hb : b.Suits s t) (hz : b.literalValue? ≠ some 0) :
    ∃ lo hi, Hull (BinaryOp.divide.results a b) lo hi ∧
      a.divide t b = (exactOrFull t lo hi).map .ok := by
  obtain ⟨aMin, aMax, hab, ha, halow, hale, hahigh⟩ := ha.operand hbt
  obtain ⟨bMin, bMax, hbb, hb, hblow, hble, hbhigh⟩ := hb.operand hbt
  have nonzero := bounds_ne_zero hz hbb
  have mapped : ∀ x : Except Fault Range,
      (x >>= fun r => .ok (.ok r) : Transferred) = x.map .ok := by
    intro x
    cases x <;> rfl
  simp only [divide, ha, hb, ok_bind, if_neg hz, exactOrFull, resultBounds, hbt]
  cases hs : t.isSigned with
  | false =>
    obtain ⟨rfl, -⟩ := Ty.unsigned_bounds hbt hs
    refine ⟨_, _, divide_hull_unsigned hab hale hbb hble nonzero halow hblow, ?_⟩
    -- quotients without sign never leave the type
    have inside : 0 ≤ aMin.tdiv bMax ∧ aMax.tdiv (max bMin 1) ≤ high :=
      ⟨Int.tdiv_nonneg halow (by omega), (Int.tdiv_le_self _ (by omega)).trans hahigh⟩
    simp only [Bool.not_false, if_true, if_neg (by omega : ¬ bMax = 0), if_pos inside]
    exact mapped _
  | true =>
    obtain ⟨h₁, h₂⟩ := Ty.signed_bounds_word hw hbt hs
    have hull := divide_hull hab hale hbb hble nonzero (by omega) (by omega)
    refine ⟨_, _, hull, ?_⟩
    simp only [Bool.not_true, Bool.false_eq_true, if_false]
    by_cases hmin : aMin = low ∧ bMin ≤ -1 ∧ -1 ≤ bMax
    · -- the least value has a quotient by -1, which the type cannot hold
      have above : -low ≤ (extremes (quotients aMin aMax bMin bMax)).2 := by
        refine hull.2.2 ((mem_quotient_results hab hale hbb hble).mpr
          ⟨low, -1, by omega, by omega, by omega, ?_⟩)
        rw [Int.tdiv_neg, Int.tdiv_one]
      have := Ty.signed_bounds hbt hs
      rw [if_pos hmin, if_neg (by omega)]
      exact mapped _
    · rw [if_neg hmin]
      exact mapped _

end Range

namespace Transfer

variable {s : Structs} {op : BinaryOp} {t : Ty} {a b : Range}

/-- **The operators bound their exact results**, and leave the rest to the type. -/
theorem binary_settled {low high : Int} (hop : op ∈ BinaryOp.tight) (hw : t.Word)
    (hbt : t.bounds? = some (low, high)) (ha : a.Suits s t) (hb : b.Suits s t)
    (hz : op = .divide → b.literalValue? ≠ some 0) :
    ∃ lo hi, Hull (op.results a b) lo hi ∧
      (Transfer.binary op).apply t [a, b] = (op.settle t lo hi).map .ok := by
  obtain ⟨aMin, aMax, hab, ha', -, hale, -⟩ := ha.operand hbt
  obtain ⟨bMin, bMax, hbb, hb', -, hble, -⟩ := hb.operand hbt
  rw [binary_apply hab]
  cases op with
  | add =>
    refine ⟨_, _, Range.add_hull hab hale hbb hble, ?_⟩
    simp only [binaryRange, Range.add, ha', hb', ok_bind, BinaryOp.settle]
  | subtract =>
    refine ⟨_, _, Range.subtract_hull hab hale hbb hble, ?_⟩
    simp only [binaryRange, Range.subtract, ha', hb', ok_bind, BinaryOp.settle]
  | multiply =>
    refine ⟨_, _, Range.multiply_hull hab hale hbb hble, ?_⟩
    simp only [binaryRange, Range.multiply, ha', hb', ok_bind, BinaryOp.settle]
  | divide => exact Range.divide_settled hw hbt ha hb (hz rfl)
  | _ => exact absurd hop (by decide)

end Transfer

/-! ### Negation -/

/-- The negations of the numbers of a range. -/
def Range.negations (a : Range) : Set Int := {z | ∃ x, a.Holds x ∧ -x = z}

/-- The range of a negation is made of its least and its greatest result. -/
theorem Range.negate_settled {s : Structs} {t : Ty} {a : Range} {low high : Int}
    (hbt : t.bounds? = some (low, high)) (ha : a.Suits s t) :
    ∃ lo hi, Hull a.negations lo hi ∧
      Transfer.negate.apply t [a] = (exactOrFull t lo hi).map .ok := by
  obtain ⟨aMin, aMax, hab, ha', -, hale, -⟩ := ha.operand hbt
  have mem : ∀ z, z ∈ a.negations ↔ ∃ x, (aMin ≤ x ∧ x ≤ aMax) ∧ -x = z := by
    intro z
    simp only [negations, Set.mem_ofPred_eq, holds_iff_bounds hab hale]
  refine ⟨-aMax, -aMin, ?_, ?_⟩
  · refine hull_of_mem ((mem _).mpr ⟨aMax, by omega, rfl⟩) ((mem _).mpr ⟨aMin, by omega, rfl⟩) ?_
    intro z hz
    obtain ⟨x, hx, rfl⟩ := (mem z).mp hz
    omega
  · simp only [Transfer.apply, Transfer.operand, List.getElem?_cons_zero, ok_bind, negate, ha']

/-! ### Operators -/

namespace Builtin

variable {s : Structs} {o : Overload} {t : Ty} {a b : Range}

/-- What an operator gives: numbers of the type it is applied to, or a boolean. -/
theorem binary_result {op : BinaryOp} (h : o ∈ overloads) (ho : o.operator = .binary op)
    (hp : o.parameters = [t, t]) :
    (op ∈ arithmetic ∧ t ∈ integers ∧ o.result = t) ∨
      (op ∈ equality ++ ordering ∧ t ∈ values ∧ o.result = bool) := by
  simp only [overloads, List.mem_append, List.mem_flatMap, List.mem_map, integerOverloads,
    List.mem_singleton] at h
  rcases h with (((⟨u, hu, ⟨op', hop, rfl⟩ | ⟨op', hop, rfl⟩⟩ | ⟨u, hu, rfl⟩) | ⟨op', hop, rfl⟩) |
    ⟨op', hop, rfl⟩) | rfl
  · cases ho
    cases hp
    exact .inl ⟨hop, hu, rfl⟩
  · cases ho
    cases hp
    exact .inr ⟨List.mem_append.mpr hop, mem_values_of_integers hu, rfl⟩
  · cases ho
  · cases ho
    cases hp
    exact .inr ⟨List.mem_append.mpr hop, by decide, rfl⟩
  · cases ho
    cases hp
    exact .inr ⟨List.mem_append_left _ hop, by decide, rfl⟩
  · cases ho

/-- A binary operator is defined on the ranges of its operands. -/
theorem binary_suits {op : BinaryOp} (h : o ∈ overloads) (ho : o.operator = .binary op)
    (hp : o.parameters = [t, t]) (ha : a.Suits s t) (hb : b.Suits s t) :
    Transferred.Suits s o.result (o.transfer.apply o.result [a, b]) := by
  obtain ⟨u, hu, hpu, -, htransfer⟩ := binary_overload h ho
  cases hp.symm.trans hpu
  obtain ⟨aMin, aMax, hab, hale⟩ := ha.compared hu
  obtain ⟨bMin, bMax, hbb, hble⟩ := hb.compared hu
  rw [htransfer]
  rcases binary_result h ho hp with ⟨hop, hi, hres⟩ | ⟨hop, -, hres⟩
  · rw [hres]
    have hw := word_of_mem (mem_all_of_values hu)
    obtain ⟨low, high, hbt⟩ := bounds_of_integers hi
    have tight : op = .modulo ∨ op ∈ BinaryOp.tight := by
      cases op <;> first | decide | exact absurd hop (by decide)
    rcases tight with rfl | tight
    · rw [Transfer.binary_apply hab]
      exact Range.modulo_suits hw hbt ha hb
    · by_cases hz : op = .divide ∧ b.literalValue? = some 0
      · rw [Transfer.binary_apply hab, hz.1]
        exact ⟨_, Range.divide_zero hab hz.2 hbb, nofun⟩
      · obtain ⟨lo, hi, hull, h⟩ :=
          Transfer.binary_settled tight hw hbt ha hb fun hd hz' => hz ⟨hd, hz'⟩
        rw [h]
        exact Transferred.suits_map (BinaryOp.settle_suits hw hbt hull.le)
  · rw [hres]
    have hm := ((Range.holds_iff_bounds hab hale).mpr ⟨le_rfl, hale⟩)
    have hn := ((Range.holds_iff_bounds hbb hble).mpr ⟨le_rfl, hble⟩)
    obtain ⟨x, hx, answers⟩ := Transfer.comparison_exact bool hop hm hn
    refine ⟨_, hx, fun r hr => ?_⟩
    cases hr
    -- the lower bounds give one of the booleans
    obtain ⟨v, hv⟩ : ∃ v, op.run? bool aMin bMin = some (truth v) := by
      cases op <;> first | exact ⟨_, rfl⟩ | exact absurd hop (by decide)
    have holds := (answers v).mpr ⟨aMin, bMin, hm, hn, hv⟩
    refine Range.suits_bools ?_
    rw [Bools.holds_truth] at holds
    cases v <;> simp_all [Bools.Nonempty]

/-- Operators of one operand have ranges that suit their results. -/
theorem unary_suits {op : UnaryOp} (h : o ∈ overloads) (ho : o.operator = .unary op)
    (hp : o.parameters = [t]) (ha : a.Suits s t) :
    Transferred.Suits s o.result (o.transfer.apply o.result [a]) := by
  obtain ⟨u, hu, hpu, hres, htransfer⟩ := unary_overload h ho
  cases hp.symm.trans hpu
  rw [htransfer, hres]
  cases op with
  | negate =>
    have signed : ∀ o ∈ overloads, o.operator = .unary .negate → ∀ u ∈ o.parameters,
        u.bounds?.isSome = true := by
      decide +kernel
    obtain ⟨⟨low, high⟩, hb⟩ := Option.isSome_iff_exists.mp
      (signed o h ho t (by rw [hp]; exact (.head _)))
    obtain ⟨lo, hi, hull, h⟩ := Range.negate_settled hb ha
    rw [UnaryOp.transfer, h]
    exact Transferred.suits_map
      (Range.exactOrFull_suits (word_of_mem (mem_all_of_values hu)) hb hull.le)
  | not =>
    have bools : ∀ o ∈ overloads, o.operator = .unary .not → ∀ u ∈ o.parameters, u = bool := by
      decide +kernel
    obtain rfl := bools o h ho t (by rw [hp]; exact (.head _))
    exact ⟨_, rfl, fun r hr => by cases hr; exact Range.not_suits ha⟩

end Builtin

end Gauge
