import Gauge.Numeral

/-!
# Proofs — numerals

`Numeral` says which texts are numbers and which number each of them is.  Reading accepts those
texts and no others, up to the largest number (`readNumeral_eq_ok_iff`), and a number is written as
such a text (`numeral_toString`).
-/

namespace Gauge

variable {c : Char}

/-- The text is a number: decimal digits, at least one, after an optional plus sign. -/
def Numeral (text : List Char) (n : Nat) : Prop :=
  ∃ digits, (text = digits ∨ text = '+' :: digits) ∧ digits ≠ [] ∧
    (∀ c ∈ digits, c.isDigit = true) ∧ Nat.ofDigitChars 10 digits 0 = n

theorem digitValue?_of_isDigit (h : c.isDigit = true) :
    digitValue? c = some (c.toNat - '0'.toNat) := by
  have between : '0' ≤ c ∧ c ≤ '9' := by
    simpa [Char.isDigit, Char.le_def] using h
  rw [digitValue?, if_pos between]

theorem digitValue?_of_not_isDigit (h : ¬ c.isDigit = true) : digitValue? c = none := by
  have outside : ¬ ('0' ≤ c ∧ c ≤ '9') := by
    simpa [Char.isDigit, Char.le_def] using h
  rw [digitValue?, if_neg outside]

theorem le_ofDigitChars (cs : List Char) (v : Nat) : v ≤ Nat.ofDigitChars 10 cs v := by
  induction cs generalizing v with
  | nil => exact Nat.le_refl v
  | cons c cs ih =>
    have := ih (10 * v + (c.toNat - '0'.toNat))
    simp only [Nat.ofDigitChars, List.foldl_cons] at this ⊢
    omega

/-- Reading digits gives what they denote, if it is not too large. -/
theorem readDigits_eq_ok_iff {largest v n : Nat} {cs : List Char} (hv : v ≤ largest) :
    readDigits largest v cs = .ok n ↔
      (∀ c ∈ cs, c.isDigit = true) ∧ Nat.ofDigitChars 10 cs v = n ∧ n ≤ largest := by
  induction cs generalizing v with
  | nil => simp [readDigits, Nat.ofDigitChars]; omega
  | cons c cs ih =>
    have next : Nat.ofDigitChars 10 (c :: cs) v =
        Nat.ofDigitChars 10 cs (v * 10 + (c.toNat - '0'.toNat)) := by
      simp [Nat.ofDigitChars, Nat.mul_comm]
    by_cases hc : c.isDigit = true
    · rw [readDigits, digitValue?_of_isDigit hc, List.forall_mem_cons, next]
      dsimp only
      split
      · next hl =>
        have := le_ofDigitChars cs (v * 10 + (c.toNat - '0'.toNat))
        simp only [reduceCtorEq, false_iff]
        omega
      · next hl => rw [ih (by omega), eq_true hc, true_and]
    · simp [readDigits, digitValue?_of_not_isDigit hc, hc]

/-- A numeral is read as the number that it stands for, unless that is too large. -/
theorem readNumeral_eq_ok_iff {largest n : Nat} {cs : List Char} :
    readNumeral largest cs = .ok n ↔ Numeral cs n ∧ n ≤ largest := by
  have iff : ∀ ds, readDigits largest 0 ds = .ok n ↔ _ := fun _ =>
    readDigits_eq_ok_iff (Nat.zero_le _)
  constructor
  · intro h
    unfold readNumeral at h
    split at h
    · cases h
    · cases h
    · next ds hne =>
      obtain ⟨hd, hn, hl⟩ := (iff ds).mp h
      exact ⟨⟨ds, .inr rfl, hne, hd, hn⟩, hl⟩
    · next hne _ _ =>
      obtain ⟨hd, hn, hl⟩ := (iff cs).mp h
      exact ⟨⟨cs, .inl rfl, hne, hd, hn⟩, hl⟩
  · rintro ⟨⟨ds, hs, hne, hd, hn⟩, hl⟩
    rw [← (iff ds).mpr ⟨hd, hn, hl⟩]
    have signless : ∀ rest, ds ≠ '+' :: rest := by
      rintro rest rfl
      cases hd '+' (.head _)
    unfold readNumeral
    rcases hs with rfl | rfl
    · split
      · exact absurd rfl hne
      · exact absurd rfl (signless _)
      · exact absurd rfl (signless _)
      · rfl
    · split <;> simp_all

theorem isDigit_of_mem_toString {n : Nat} (h : c ∈ (toString n).toList) : c.isDigit = true := by
  rw [Nat.toString_eq_repr, Nat.toList_repr] at h
  exact Nat.isDigit_of_mem_toDigits (by decide) (by decide) h

theorem ofDigitChars_toString (n : Nat) : Nat.ofDigitChars 10 (toString n).toList 0 = n := by
  rw [Nat.toString_eq_repr, Nat.toList_repr]
  exact Nat.ofDigitChars_toDigits (by decide) (by decide)

/-- A number is written as the digits that denote it. -/
theorem numeral_toString (n : Nat) : Numeral (toString n).toList n := by
  refine ⟨_, .inl rfl, ?_, fun c => isDigit_of_mem_toString, ofDigitChars_toString n⟩
  rw [Nat.toString_eq_repr, Nat.toList_repr]
  exact Nat.toDigits_ne_nil

end Gauge
