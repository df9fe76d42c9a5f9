import Gauge.Proofs.Cast.Defined

/-!
# Proofs — what the operators say of their results

On ranges that suit the types of its operands every builtin operator has an answer.  It is a range
that holds each value the operation can have, or a violation, and that only where nothing but zero
can be divided by (`Transfer.binary_violation`).  The conversions of numbers and the two logical
operators give such ranges as well.

Main statement: `Builtin.operators_sound`.
-/

namespace Gauge

namespace Range

variable {s : Structs} {t : Ty} {a b r : Range} {v k : Int} {violation : Violation}

/-- What lies in a range of values of a type is a value of the type. -/
theorem Suits.admits (h : r.Suits s t) (hv : r.Holds v) : t.Admits v := by
  cases t with
  | scalar f c =>
    refine ⟨c, rfl, ?_⟩
    have h := suits_scalar.mp h
    have spanned : ∀ {lo hi : Int}, c.Spans lo hi → lo ≤ v → v ≤ hi → c.Admits v := by
      rintro lo hi ⟨low, high, hb, hl, -, hh⟩ hlv hvh
      simp only [Scalar.Admits, hb]
      exact ⟨hl.trans hlv, hvh.trans hh⟩
    unfold SuitsScalar at h
    cases hk : c.kind <;> simp only [hk] at h
    case void =>
      subst h
      exact hv.elim
    case bool =>
      obtain ⟨x, rfl, -⟩ := h
      simp only [Scalar.Admits, Scalar.bounds?_eq, hk]
      exact ⟨trivial, hv.zero_or_one⟩
    all_goals
      obtain ⟨lo, hi, rfl, hspans⟩ := h
      exact spanned hspans hv.1 hv.2
  | pointer _ _ _ =>
    obtain ⟨_, _, rfl, -⟩ := suits_pointer.mp h
    exact hv.elim
  | struct _ _ =>
    obtain ⟨_, rfl, -⟩ := suits_struct.mp h
    exact hv.elim
  | function _ _ _ _ _ => exact (not_suits_function h).elim

/-- A range that is a single number holds it and nothing else. -/
theorem holds_iff_of_literal (h : r.literalValue? = some k) : r.Holds v ↔ v = k := by
  refine ⟨fun hv => hv.eq_literal h, ?_⟩
  rintro rfl
  unfold literalValue? at h
  split at h
  case isFalse => cases h
  case isTrue hl =>
    cases r with
    | unsigned lo hi | signed lo hi =>
      obtain rfl : lo = hi := by simpa [isLiteral] using hl
      cases h
      exact ⟨le_rfl, le_rfl⟩
    | bools x =>
      obtain ⟨f, t⟩ := x
      cases f <;> cases t <;> cases hl <;> cases h <;> simp [Holds, Bools.Holds]
    | pointer _ _ | array _ | void => cases h

/-- An answer that is a range is no violation. -/
theorem ok_ne_violation (x : Except Fault Range) :
    (do return .ok (← x) : Transferred) ≠ .ok (.error violation) := by
  cases x <;> exact nofun

/-- Division fails for certain only where the divisor is known to be zero. -/
theorem divide_violation (h : a.divide t b = .ok (.error violation)) :
    b.literalValue? = some 0 := by
  unfold divide at h
  obtain ⟨⟨aMin, aMax⟩, -, h⟩ := bind_eq_ok.mp h
  obtain ⟨⟨bMin, bMax⟩, -, h⟩ := bind_eq_ok.mp h
  by_contra hz
  simp only [if_neg hz] at h
  split at h
  · split at h
    · cases h
    · exact ok_ne_violation _ h
  · obtain ⟨⟨low, high⟩, -, h⟩ := bind_eq_ok.mp h
    split at h
    · exact ok_ne_violation _ h
    · exact ok_ne_violation _ h

theorem modulo_violation (h : a.modulo t b = .ok (.error violation)) :
    b.literalValue? = some 0 := by
  unfold modulo at h
  obtain ⟨⟨aMin, aMax⟩, -, h⟩ := bind_eq_ok.mp h
  obtain ⟨⟨bMin, bMax⟩, -, h⟩ := bind_eq_ok.mp h
  by_contra hz
  simp only [if_neg hz] at h
  split at h
  · split at h
    · exact ok_ne_violation _ h
    · exact ok_ne_violation _ h
  · exact ok_ne_violation _ h

end Range

/-- A violation is found in divisions and remainders, where the divisor can only be zero. -/
theorem Transfer.binary_violation {op : BinaryOp} {t : Ty} {a b : Range} {violation : Violation}
    (h : (Transfer.binary op).apply t [a, b] = .ok (.error violation)) :
    (op = .divide ∨ op = .modulo) ∧ ∀ y, b.Holds y ↔ y = 0 := by
  obtain ⟨pair, hpair, h⟩ := bind_eq_ok.mp h
  obtain rfl : pair = (a, b) := by
    cases op with
    | greater | greaterEquals =>
      cases hpair
      rfl
    | _ =>
      have bounded : (a.operandBounds >>= fun _ => .ok (a, b)) = .ok pair := hpair
      obtain ⟨_, -, hpair⟩ := bind_eq_ok.mp bounded
      cases hpair
      rfl
  -- what is made of a range is no violation
  have mapped : ∀ {x : Except Fault Range} {f : Range → Range},
      (x.map fun r => (.ok (f r) : Except Violation Range)) ≠ .ok (.error violation) := by
    intro x f h
    obtain ⟨_, -, h⟩ := map_eq_ok.mp h
    cases h
  cases op with
  | divide => exact ⟨.inl rfl, fun _ => Range.holds_iff_of_literal (Range.divide_violation h)⟩
  | modulo => exact ⟨.inr rfl, fun _ => Range.holds_iff_of_literal (Range.modulo_violation h)⟩
  | notEquals => exact absurd h (mapped (f := Range.not))
  | _ => exact absurd h (mapped (f := id))

namespace Bools

variable {a b : Bools} {x y : Bool}

theorem and_holds (ha : a.Holds (truth x)) (hb : b.Holds (truth y)) :
    (a.and b).Holds (truth (x && y)) := by
  cases x with
  | false => exact ha.and_false b
  | true => exact ha.and_true hb

theorem or_holds (ha : a.Holds (truth x)) (hb : b.Holds (truth y)) :
    (a.or b).Holds (truth (x || y)) := by
  cases x with
  | false => exact ha.or_false hb
  | true => exact ha.or_true b

end Bools

namespace Builtin

variable {s : Structs} {o : Overload} {t : Ty} {a b : Range}

/-- The operands of an operator with a result of integers are values of the type of the result. -/
theorem admits_operand {op : BinaryOp} {x : Int} (h : o ∈ overloads) (ho : o.operator = .binary op)
    (hp : o.parameters = [t, t]) (ha : a.Suits s t) (hx : a.Holds x)
    (hres : o.result.isBool = false) : o.result.Admits x := by
  rcases binary_result h ho hp with ⟨-, -, he⟩ | ⟨-, -, he⟩
  · rw [he]
    exact ha.admits hx
  · rw [he] at hres
    cases hres

/-- A binary operator has an answer, which holds every result; it is a violation only where the
divisor can be nothing but zero. -/
theorem binary_sound {op : BinaryOp} (h : o ∈ overloads) (ho : o.operator = .binary op)
    (hp : o.parameters = [t, t]) (ha : a.Suits s t) (hb : b.Suits s t) :
    (∀ x y v, a.Holds x → b.Holds y → op.run? o.result x y = some v →
      ∃ r, o.transfer.apply o.result [a, b] = .ok (.ok r) ∧ r.Holds v) ∧
    ∃ answer, o.transfer.apply o.result [a, b] = .ok answer ∧
      ∀ violation, answer = .error violation →
        (op = .divide ∨ op = .modulo) ∧ ∀ y, b.Holds y ↔ y = 0 := by
  obtain ⟨u, -, -, -, htransfer⟩ := binary_overload h ho
  obtain ⟨answer, hanswer, -⟩ := binary_suits h ho hp ha hb
  rw [htransfer] at hanswer ⊢
  have only : ∀ violation, answer = .error violation →
      (op = .divide ∨ op = .modulo) ∧ ∀ y, b.Holds y ↔ y = 0 := by
    rintro violation rfl
    exact Transfer.binary_violation hanswer
  refine ⟨?_, answer, hanswer, only⟩
  intro x y v hx hy hv
  cases answer with
  | error violation =>
    -- nothing is divided by zero
    obtain ⟨hop, hzero⟩ := only violation rfl
    obtain rfl := (hzero y).mp hy
    rcases hop with rfl | rfl
    · cases hv
    · cases hv
  | ok r =>
    have hw : o.result.Word := by
      rcases binary_result h ho hp with ⟨-, hi, he⟩ | ⟨-, -, he⟩
      · rw [he]
        exact word_of_mem (mem_all_of_integers hi)
      · rw [he]
        exact word_bool
    exact ⟨r, hanswer, Transfer.binary_holds hw hanswer hx hy (admits_operand h ho hp ha hx)
      (admits_operand h ho hp hb hy) hv⟩

/-- Operators of one operand have a range, which holds their results. -/
theorem unary_sound {op : UnaryOp} (h : o ∈ overloads) (ho : o.operator = .unary op)
    (hp : o.parameters = [t]) (ha : a.Suits s t) :
    ∃ r, o.transfer.apply o.result [a] = .ok (.ok r) ∧
      ∀ x v, a.Holds x → op.run? o.result x = some v → r.Holds v := by
  obtain ⟨u, hu, -, hres, htransfer⟩ := unary_overload h ho
  obtain ⟨answer, hanswer, -⟩ := unary_suits h ho hp ha
  have hw : o.result.Word := hres ▸ word_of_mem (mem_all_of_values hu)
  rw [htransfer] at hanswer ⊢
  cases answer with
  | error violation =>
    cases op with
    | negate =>
      obtain ⟨_, -, hanswer⟩ := map_eq_ok.mp hanswer
      cases hanswer
    | not => cases hanswer
  | ok r => exact ⟨r, hanswer, fun x v hx hv => Transfer.unary_holds hw hanswer hx hv⟩

/-- Converting numbers to a type of numbers. -/
theorem convertedRange_sound {destination : Ty} (ht : t ∈ values) (hd : destination ∈ values)
    (hne : destination ≠ bool) (ha : a.Suits s t) :
    ∃ r, s.convertedRange a destination = .ok r ∧
      ∀ x, a.Holds x → ∃ w, destination.wrap? x = some w ∧ r.Holds w := by
  have numbers : ∀ d ∈ values, d ≠ bool → d.bounds?.isSome = true ∧ ∃ c, d.scalar? = some c := by
    intro d hd hne
    obtain ⟨c, rfl, -⟩ := scalar_of_mem (mem_all_of_values hd)
    have bounded : ∀ d ∈ values, d ≠ bool → d.bounds?.isSome = true := by decide
    exact ⟨bounded _ hd hne, c, rfl⟩
  obtain ⟨hsome, c, hc⟩ := numbers destination hd hne
  obtain ⟨⟨low, high⟩, hb⟩ := Option.isSome_iff_exists.mp hsome
  have hw := word_of_mem (mem_all_of_values hd)
  have hnative : destination.Native fun _ => False := Ty.native_of_mem (mem_all_of_values hd)
  obtain ⟨lo, hi, hbounds, hle⟩ := ha.compared ht
  have none : Structs.empty.Native fun _ => False := by
    intro r l h
    cases h
  obtain ⟨r, hr, -⟩ : ∃ r, Structs.empty.convertedRange a destination = .ok r ∧
      r.Suits .empty destination :=
    Structs.convertedRange_suits (K := fun _ => False) none hw hnative hb hbounds hle
  -- the structs play no part in a conversion of numbers
  have plain : s.convertedRange a destination = Structs.empty.convertedRange a destination := by
    obtain ⟨c, rfl, -⟩ := scalar_of_mem (mem_all_of_values hd)
    rfl
  refine ⟨r, plain.trans hr, fun x hx => ?_⟩
  obtain ⟨w, hwrap⟩ := Ty.wrap_of_bounds hb x
  exact ⟨w, hwrap, Structs.convertedRange_holds hw hr hx hwrap⟩

/-- **The ranges of operations are sound.**  On ranges of values of its operands' types an operator
answers with a range that holds all its results, and says that it is certain to fail only where the
divisor can be nothing but zero.  So do the unary operators, the conversions of numbers, and `&&`
and `||`. -/
theorem operators_sound (s : Structs) :
    (∀ o ∈ overloads, ∀ op t a b, o.operator = .binary op → o.parameters = [t, t] →
      a.Suits s t → b.Suits s t →
      (∀ x y v, a.Holds x → b.Holds y → op.run? o.result x y = some v →
        ∃ r, o.transfer.apply o.result [a, b] = .ok (.ok r) ∧ r.Holds v) ∧
      ∃ answer, o.transfer.apply o.result [a, b] = .ok answer ∧
        ∀ violation, answer = .error violation →
          (op = .divide ∨ op = .modulo) ∧ ∀ y, b.Holds y ↔ y = 0) ∧
    (∀ o ∈ overloads, ∀ op t a, o.operator = .unary op → o.parameters = [t] → a.Suits s t →
      ∃ r, o.transfer.apply o.result [a] = .ok (.ok r) ∧
        ∀ x v, a.Holds x → op.run? o.result x = some v → r.Holds v) ∧
    (∀ t ∈ values, ∀ destination ∈ values, destination ≠ bool → ∀ a, a.Suits s t →
      ∃ r, s.convertedRange a destination = .ok r ∧
        ∀ x, a.Holds x → ∃ w, destination.wrap? x = some w ∧ r.Holds w) ∧
    ∀ (a b : Bools) (x y : Bool), a.Holds (truth x) → b.Holds (truth y) →
      (a.and b).Holds (truth (x && y)) ∧ (a.or b).Holds (truth (x || y)) := by
  refine ⟨?_, ?_, ?_, ?_⟩
  · intro o h op t a b ho hp ha hb
    exact binary_sound h ho hp ha hb
  · intro o h op t a ho hp ha
    exact unary_sound h ho hp ha
  · intro t ht destination hd hne a ha
    exact convertedRange_sound ht hd hne ha
  · intro a b x y ha hb
    exact ⟨Bools.and_holds ha hb, Bools.or_holds ha hb⟩

/-- A signed byte divided by -1, 0 or 1: the least one has no quotient by -1, and all others have
one in the range. -/
theorem operators_sound_quotient :
    (Range.signed (-1) 1).Suits .empty s8 ∧
    ∃ r, (Transfer.binary .divide).apply s8 [.signed (-128) 127, .signed (-1) 1] = .ok (.ok r) ∧
      r.Holds 127 := by
  have left : (Range.signed (-128) 127).Suits .empty s8 :=
    ⟨_, _, rfl, -128, 127, rfl, by decide, by decide, by decide⟩
  have right : (Range.signed (-1) 1).Suits .empty s8 :=
    ⟨_, _, rfl, -128, 127, rfl, by decide, by decide, by decide⟩
  have member : binary s8 s8 .divide ∈ overloads := by
    simp [overloads, integers, signed, integerOverloads, arithmetic]
  have sound := (operators_sound .empty).1 (binary s8 s8 .divide) member .divide s8 _ _ rfl rfl left
    right
  exact ⟨right, sound.1 (-127) (-1) 127 ⟨by decide, by decide⟩ ⟨by decide, by decide⟩ rfl⟩

end Builtin

end Gauge
