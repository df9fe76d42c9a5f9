import Gauge.Proofs.Compile
import Gauge.Text.Line

/-!
# Proofs — errors point into the text

A program that is refused has an error in its own file, at a place that can be shown
(`compile_located`).  The reader of tokens fails between two characters.  Whatever comes after it
works on tokens and on the trees made of them, and takes the position of an error from one of them.
-/

namespace Gauge

variable {limits : Limits} {file source : String}

/-- The offset can be shown: it is not past the end of the text, no character is cut by it, and
there is a line that holds it. -/
structure Within (source : String) (offset : Nat) : Prop where
  le : offset ≤ source.utf8ByteSize
  cut : IsCut source offset
  line : (lineAt source.toList offset).isSome

theorem IsCut.within {offset : Nat} (h : IsCut source offset) : Within source offset where
  le := h.le_rawEndPos
  cut := h
  line := by
    have inside : ¬ width source.toList < offset := by
      rw [width_toList]
      exact Nat.not_lt.mpr h.le_rawEndPos
    rw [lineAt, if_neg inside]
    rfl

/-- **Every error points into the text.**  The position of an error is in the file that was compiled
and at a place of its text; and unless the text has no tokens, one of them starts there. -/
theorem compile_located {e : Error} (h : compile limits file source = .error (.error e)) :
    e.position.file = file ∧ Within source e.offset ∧
      (tokenize file source = .error e ∨
        ∃ tokens, tokenize file source = .ok tokens ∧ Begins tokens e.position) := by
  have cuts := tokenize_cuts file source
  cases ht : tokenize file source with
  | error e' =>
    rw [ht] at cuts
    rw [compile, analyze, ht] at h
    cases h
    exact ⟨(tokenize_error_textual ht).2, cuts.within, .inl rfl⟩
  | ok tokens =>
    have safe := compile_safe limits file source
    rw [h] at safe
    obtain ⟨t, hm, hs⟩ := safe.2 tokens ht
    rw [ht] at cuts
    refine ⟨?_, ?_, .inr ⟨tokens, rfl, t, hm, hs⟩⟩
    · rw [hs]
      exact ((tokensFrom_tiled ht).inFile t hm).1
    · rw [Error.offset, hs]
      exact (cuts t hm).1.within

/-- A sum that starts with a value in parentheses is refused where the value starts, and not at the
parenthesis; the text before it has a character of two bytes. -/
theorem compile_located_parenthesized :
    let source := "/*é*/def f() \x7b (true) + 1; \x7d"
    let e : Error := ⟨.incompatibleTypes "+" "Bool" "U8", ⟨17, "f.g"⟩⟩
    compile .standard "f.g" source = .error (.error e) ∧ Within source e.offset ∧
      ∃ tokens, tokenize "f.g" source = .ok tokens ∧ Begins tokens e.position := by
  intro source e
  let at_ (kind : TokenKind) (value : String) (start stop : Nat) : Token :=
    ⟨kind, value, .inFile "f.g" start stop⟩
  let tokens : List Token := [at_ .kwDef "def" 6 9, at_ .identifier "f" 10 11,
    at_ .openParen "(" 11 12, at_ .closeParen ")" 12 13, at_ .openCurly "\x7b" 14 15,
    at_ .openParen "(" 16 17, at_ .kwTrue "true" 17 21, at_ .closeParen ")" 21 22,
    at_ .plus "+" 23 24, at_ .number "1" 25 26, at_ .semicolon ";" 26 27,
    at_ .closeCurly "\x7d" 28 29, .eof ⟨29, "f.g"⟩]
  have read : tokenize "f.g" source = .ok tokens := by
    have run : rounds "f.g" 30 [] 0 source.toList = some (.ok tokens) := by decide +kernel
    rw [rounds_eq_some (by decide)] at run
    obtain ⟨found, hf, rfl⟩ := map_eq_ok.mp (Option.some.inj run)
    exact hf
  have refused : compile .standard "f.g" source = .error (.error e) := by
    have analyzed : analyze .standard (moduleName "f.g") "f.g" source = .error (.error e) := by
      rw [analyze, read]
      exact eq_error_of_failure (by decide +kernel)
    rw [compile, analyzed]
    rfl
  obtain ⟨-, within, place⟩ := compile_located refused
  refine ⟨refused, within, ?_⟩
  rcases place with failed | place
  · cases read.symm.trans failed
  · exact place

end Gauge
