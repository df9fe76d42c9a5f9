import Gauge.Proofs.Numeral
import Gauge.Proofs.Success
import Gauge.Proofs.Text.Run
import Gauge.Weight

/-!
# Proofs — the text of a weight

A weight is read from two numbers with a colon between them, and white space around each is passed
over.  Main statement: `Weight.read_exact`, which says which texts are read and as what, so that a
weight is read back from the text it is written as.
-/

namespace Gauge

/-- A numeral has no white space in it. -/
theorem Numeral.not_blank {text : List Char} {n : Nat} (h : Numeral text n) :
    text ≠ [] ∧ ∀ c ∈ text, isBlank c = false := by
  have digit : ∀ {c : Char}, c.isDigit = true → isBlank c = false := by
    intro c hc
    have : 48 ≤ c.toNat ∧ c.toNat ≤ 57 := Char.isDigit_iff_toNat.mp hc
    simp only [isBlank, CharClass.contains, CharClass.blank, List.any_cons, List.any_nil,
      Bool.or_false, Bool.or_eq_false_iff, Bool.and_eq_false_imp, decide_eq_true_eq,
      decide_eq_false_iff_not]
    omega
  obtain ⟨digits, rfl | rfl, hne, hd, -⟩ := h
  · exact ⟨hne, fun c hc => digit (hd c hc)⟩
  · exact ⟨by simp, List.forall_mem_cons.mpr ⟨by decide, fun c hc => digit (hd c hc)⟩⟩

/-- The text is a number with white space around it. -/
def PaddedNumeral (cs : List Char) (n : Nat) : Prop :=
  ∃ before text after, cs = before ++ (text ++ after) ∧ (∀ c ∈ before, isBlank c = true) ∧
    (∀ c ∈ after, isBlank c = true) ∧ Numeral text n

namespace Weight

/-- One half of a weight. -/
theorem readHalf_eq_ok_iff {cs : List Char} {n : UInt32} :
    readHalf cs = .ok n ↔ PaddedNumeral cs n.toNat := by
  rw [readHalf, map_eq_ok]
  constructor
  · rintro ⟨m, hm, rfl⟩
    obtain ⟨numeral, hl⟩ := readNumeral_eq_ok_iff.mp hm
    obtain ⟨before, after, hcs, hb, ha⟩ := exists_trim cs
    rw [UInt32.toNat_ofNat_of_lt' (by simp only [UInt32.size] at hl ⊢; omega)]
    exact ⟨before, trim cs, after, hcs, hb, ha, numeral⟩
  · rintro ⟨before, text, after, rfl, hb, ha, numeral⟩
    obtain ⟨hne, ht⟩ := numeral.not_blank
    rw [trim_eq hb ha ht hne]
    exact ⟨n.toNat, readNumeral_eq_ok_iff.mpr ⟨numeral, Nat.le_sub_one_of_lt n.toNat_lt⟩,
      UInt32.ofNat_toNat⟩

/-- The two halves of a weight stand around its first colon. -/
theorem read_eq_ok_iff {s : String} {w : Weight} :
    read s = .ok w ↔ ∃ left right, s.toList = left ++ ':' :: right ∧ ':' ∉ left ∧
      readHalf left = .ok w.length ∧ readHalf right = .ok w.cost := by
  constructor
  · intro h
    rw [read] at h
    have parts := List.takeWhile_append_dropWhile (p := (· ≠ ':')) (l := s.toList)
    have before : ':' ∉ s.toList.takeWhile (· ≠ ':') := fun hm => by
      simpa using List.mem_takeWhile_imp hm
    rcases dropWhile_ne ':' s.toList with hd | ⟨right, hd⟩
    · simp only [hd, reduceCtorEq] at h
    · rw [hd] at h parts
      dsimp only at h
      split at h
      · cases h
      · next hlength =>
        split at h
        · cases h
        · next hcost =>
          cases h
          exact ⟨_, right, parts.symm, before, hlength, hcost⟩
  · rintro ⟨left, right, hs, hl, hlength, hcost⟩
    have all : ∀ c ∈ left, decide (c ≠ ':') = true := fun c hc => by
      simpa using ne_of_mem_of_not_mem hc hl
    have before : s.toList.takeWhile (· ≠ ':') = left := by
      rw [hs]
      exact takeWhile_append_of_stop all rfl
    have after : s.toList.dropWhile (· ≠ ':') = ':' :: right := by
      rw [hs, List.dropWhile_append_of_pos all]
      rfl
    simp only [read, before, after, hlength, hcost]

/-- **A weight is read from exactly the texts of a weight**: two numbers that fit, each with white
space around it, parted by the first colon; the length is the first and the cost the second.  The
text that a weight is written as is one. -/
theorem read_exact :
    (∀ s w, read s = .ok w ↔ ∃ left right, s.toList = left ++ ':' :: right ∧ ':' ∉ left ∧
      PaddedNumeral left w.length.toNat ∧ PaddedNumeral right w.cost.toNat) ∧
    ∀ w, read w.text = .ok w := by
  have bare : ∀ n : UInt32, readHalf (toString n.toNat).toList = .ok n := fun n =>
    readHalf_eq_ok_iff.mpr ⟨[], _, [], by simp, by simp, by simp, numeral_toString n.toNat⟩
  refine ⟨fun s w => by simp only [read_eq_ok_iff, readHalf_eq_ok_iff], fun w => ?_⟩
  exact read_eq_ok_iff.mpr ⟨_, _, by simp [text],
    fun colon => absurd (isDigit_of_mem_toString colon) (by decide), bare _, bare _⟩

end Weight

end Gauge
