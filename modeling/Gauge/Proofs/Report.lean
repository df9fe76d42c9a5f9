import Gauge.Proofs.Text.Line
import Gauge.Report

/-!
# Proofs — the caret of a report

The caret line of a report holds a dash for each byte between the indentation of the line and the
offset (`Error.report_caret`).  The caret is under the character at the offset if each character
before it is one byte, that is ASCII, and too far to the right if not.
-/

namespace Gauge

theorem length_le_width (cs : List Char) : cs.length ≤ width cs := by
  induction cs with
  | nil => exact Nat.le_refl 0
  | cons c cs ih =>
    have := c.utf8Size_pos
    rw [List.length_cons, width_cons]
    omega

/-- A text is as long in bytes as in characters exactly if all of them are ASCII. -/
theorem width_eq_length_iff {cs : List Char} : width cs = cs.length ↔ ∀ c ∈ cs, c.toNat < 128 := by
  induction cs with
  | nil => simp
  | cons c cs ih =>
    have pos := c.utf8Size_pos
    have le := length_le_width cs
    have ascii : c.utf8Size = 1 ↔ c.toNat < 128 := by
      rw [Char.utf8Size_eq_one_iff, UInt32.le_iff_toNat_le]
      exact Nat.lt_succ_iff.symm
    rw [width_cons, List.length_cons, List.forall_mem_cons, ← ih, ← ascii]
    omega

/-- The offset stands between two characters of the text and not inside the indentation of its line;
`shown` are the characters between the two. -/
def ShownBefore (source : List Char) (offset : Nat) (shown : List Char) : Prop :=
  ∃ earlier indent later, source = earlier ++ (indent ++ shown ++ later) ∧
    offset = width earlier + width (indent ++ shown) ∧
    (earlier = [] ∨ earlier.getLast? = some '\n') ∧ (∀ c ∈ indent, isIndent c = true) ∧
    '\n' ∉ shown ∧ (shown ++ later).head?.all (!isIndent ·) = true

/-- The dashes are those of the bytes between the indentation and the column. -/
theorem Line.report_caretLines {l : Line} {indent shown : List Char}
    (ht : l.text.takeWhile isIndent = indent) (hi : ∀ c ∈ indent, isIndent c = true)
    (hc : l.column = width (indent ++ shown)) (headline file : String) :
    ∃ head, String.join (([headline, "-> " ++ file] ++ l.caretLines).map (· ++ "\n")) =
      head ++ "| " ++ String.ofList (List.replicate (width shown) '-') ++ "^\n" := by
  have ascii : width indent = indent.length := width_eq_length_iff.mpr fun c hc => by
    have := hi c hc
    simp [isIndent] at this
    rcases this with rfl | rfl <;> decide
  have dashes : l.column - (l.text.takeWhile isIndent).length = width shown := by
    rw [ht, hc, width_append, ascii, Nat.add_sub_cancel_left]
  refine ⟨String.join (([headline, "-> " ++ file] ++ l.caretLines.take 2).map (· ++ "\n")) ++
    String.ofList (List.replicate ((toString l.number).length + 1) ' '), String.toList_inj.mp ?_⟩
  simp [caretLines, dashes, String.join, margin]

/-- **The caret stands behind as many dashes as there are bytes before it**, without the indentation
of the line; as many as there are characters only if these are ASCII. -/
theorem Error.report_caret {e : Error} {source : String} {shown : List Char}
    (h : ShownBefore source.toList e.offset shown) (file : String) :
    (∃ head, e.report source file =
      head ++ "| " ++ String.ofList (List.replicate (width shown) '-') ++ "^\n") ∧
    (width shown = shown.length ↔ ∀ c ∈ shown, c.toNat < 128) := by
  refine ⟨?_, width_eq_length_iff⟩
  obtain ⟨earlier, indent, later, hs, ho, hw, hi, hn, hh⟩ := h
  have inside : '\n' ∉ indent ++ shown := fun hm => by
    rcases List.mem_append.mp hm with hm | hm
    · exact absurd (hi _ hm) (by decide)
    · exact hn hm
  have parted := Parted.of_lead later hw inside
  rw [← hs] at parted
  have found := parted.lineAt_eq (k := width (indent ++ shown))
    (by rw [width_append (indent ++ shown)]; omega)
  have lead : (shown ++ (later.takeWhile (· ≠ '\n') ++ (later.dropWhile (· ≠ '\n')).take 1)).head?
      = (shown ++ later).head? := by
    cases shown with
    | cons _ _ => rfl
    | nil =>
      cases later with
      | nil => rfl
      | cons c _ => by_cases hc : c = '\n' <;> simp [hc]
  rw [report, ho, found]
  refine Line.report_caretLines ?_ hi rfl _ _
  simp only [List.append_assoc]
  exact takeWhile_append_of_stop hi (by rw [lead]; exact hh)

/-- Eight characters of the line `/* é */ y; }` stand before the name, and nine dashes. -/
theorem Error.report_caret_accented : "/* é */ ".length = 8 ∧
    ∃ head, (Error.mk (.symbolNotFound "y") ⟨20, "m.g"⟩).report
        "def f() \x7b\n\t/* é */ y; \x7d" "m.g" =
      head ++ "| " ++ String.ofList (List.replicate 9 '-') ++ "^\n" := by
  have shown : ShownBefore "def f() \x7b\n\t/* é */ y; \x7d".toList 20 "/* é */ ".toList :=
    ⟨"def f() \x7b\n".toList, ['\t'], "y; \x7d".toList, by decide, by decide, .inr (by decide),
      by simp [isIndent], by decide, by decide⟩
  have dashes : width "/* é */ ".toList = 9 := by decide
  have caret := (report_caret (e := ⟨.symbolNotFound "y", 20, "m.g"⟩) shown "m.g").1
  rw [dashes] at caret
  exact ⟨by decide, caret⟩

end Gauge
