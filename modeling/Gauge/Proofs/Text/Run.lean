import Gauge.Text.CharClass
import Mathlib.Data.List.TakeWhile

/-!
# Proofs — runs of characters

Where a run of characters of one kind ends, and the white space around a text.
-/

namespace Gauge

theorem take_takeWhile (p : Char → Bool) (cs : List Char) :
    cs.take (cs.takeWhile p).length = cs.takeWhile p :=
  (List.prefix_iff_eq_take.mp (List.takeWhile_prefix p)).symm

theorem drop_takeWhile (p : Char → Bool) (cs : List Char) :
    cs.drop (cs.takeWhile p).length = cs.dropWhile p :=
  calc cs.drop (cs.takeWhile p).length
    _ = (cs.takeWhile p ++ cs.dropWhile p).drop (cs.takeWhile p).length := by
          rw [List.takeWhile_append_dropWhile]
    _ = cs.dropWhile p := List.drop_left

/-- A run of characters ends where the next is of another kind. -/
theorem takeWhile_append_of_stop {p : Char → Bool} {run rest : List Char}
    (hr : ∀ c ∈ run, p c = true) (hs : rest.head?.all (!p ·) = true) :
    (run ++ rest).takeWhile p = run := by
  rw [List.takeWhile_append_of_pos hr]
  cases rest with
  | nil => simp
  | cons c rest =>
    have hc : p c = false := by simpa using hs
    simp [hc]

theorem dropWhile_ne (c : Char) (cs : List Char) :
    cs.dropWhile (· ≠ c) = [] ∨ ∃ tail, cs.dropWhile (· ≠ c) = c :: tail := by
  have stop := List.head?_dropWhile_not (· ≠ c) cs
  cases h : cs.dropWhile (· ≠ c) with
  | nil => exact .inl rfl
  | cons d tail =>
    rw [h] at stop
    exact .inr ⟨tail, by simpa using stop⟩

/-! ### White space around a text -/

/-- Trimming takes away nothing but white space. -/
theorem exists_trim (cs : List Char) : ∃ before after, cs = before ++ (trim cs ++ after) ∧
    (∀ c ∈ before, isBlank c = true) ∧ ∀ c ∈ after, isBlank c = true := by
  let rest := cs.dropWhile isBlank
  have back : rest = trimRight rest ++ (rest.reverse.takeWhile isBlank).reverse := by
    rw [trimRight, ← List.reverse_append, List.takeWhile_append_dropWhile, List.reverse_reverse]
  refine ⟨cs.takeWhile isBlank, (rest.reverse.takeWhile isBlank).reverse, ?_,
    fun c hc => List.mem_takeWhile_imp hc,
    fun c hc => List.mem_takeWhile_imp (List.mem_reverse.mp hc)⟩
  rw [trim, ← back, List.takeWhile_append_dropWhile]

/-- Trimming takes away all white space at the ends. -/
theorem trim_eq {before text after : List Char} (hb : ∀ c ∈ before, isBlank c = true)
    (ha : ∀ c ∈ after, isBlank c = true) (ht : ∀ c ∈ text, isBlank c = false) (hne : text ≠ []) :
    trim (before ++ (text ++ after)) = text := by
  have keep : ∀ {cs : List Char} (tail : List Char), cs ≠ [] → (∀ c ∈ cs, isBlank c = false) →
      (cs ++ tail).dropWhile isBlank = cs ++ tail := by
    intro cs tail hne hcs
    cases cs with
    | nil => exact absurd rfl hne
    | cons c cs => exact List.dropWhile_cons_of_neg (by simp [hcs c (.head _)])
  have flipped : ∀ c ∈ text.reverse, isBlank c = false := fun c hc => ht c (List.mem_reverse.mp hc)
  have behind : ∀ c ∈ after.reverse, isBlank c = true := fun c hc => ha c (List.mem_reverse.mp hc)
  rw [trim, List.dropWhile_append_of_pos hb, keep after hne ht, trimRight, List.reverse_append,
    List.dropWhile_append_of_pos behind, ← List.append_nil text.reverse,
    keep [] (by simpa using hne) flipped, List.append_nil, List.reverse_reverse]

end Gauge
