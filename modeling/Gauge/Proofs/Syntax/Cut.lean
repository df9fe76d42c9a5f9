import Gauge.Token.Lexer
import Gauge.Proofs.Success

/-!
# Proofs — a text is cut between its characters

Offsets count bytes, and a character may take several.  Every offset at which a token begins or ends
lies between two characters, and so does the one at which a text turns out to have no tokens
(`tokenize_cuts`).
-/

namespace Gauge

/-- The offset lies between two characters of the text, or at one of its ends. -/
def IsCut (source : String) (offset : Nat) : Prop := String.Pos.Raw.IsValid source ⟨offset⟩

theorem utf8ByteSize_ofList : ∀ cs : List Char, (String.ofList cs).utf8ByteSize = width cs
  | [] => rfl
  | c :: cs => by
    rw [String.ofList_cons, String.utf8ByteSize_append, String.utf8ByteSize_singleton,
      utf8ByteSize_ofList cs, width_cons]

theorem isCut_width {source : String} {before after : List Char}
    (h : source.toList = before ++ after) : IsCut source (width before) := by
  refine String.Pos.Raw.isValid_iff_exists_append.mpr
    ⟨String.ofList before, String.ofList after, ?_, ?_⟩
  · rw [← String.ofList_append, ← h, String.ofList_toList]
  · rw [String.rawEndPos, utf8ByteSize_ofList]

theorem map_eq_error {ε α β : Type} {x : Except ε α} {f : α → β} {e : ε} :
    x.map f = .error e ↔ x = .error e := by
  cases x <;> simp [Except.map]

variable {source : String} {before : List Char}

/-- An error in a string is at its opening quote or at a backslash inside. -/
theorem readString_error_cut {file : String} {opening offset : Nat} {cs : List Char} {e : Error}
    (ho : IsCut source opening) (hs : source.toList = before ++ cs) (hw : offset = width before)
    (h : readString file opening offset cs = .error e) : IsCut source e.offset := by
  fun_induction readString file opening offset cs generalizing before with
  | case1 _ =>
    cases h
    exact ho
  | case2 _ _ => cases h
  | case3 _ =>
    cases h
    exact ho
  | case4 _ _ _ _ =>
    cases h
    rw [hw]
    exact isCut_width hs
  | case5 _ c cs d _ ih =>
    have hs' : source.toList = (before ++ ['\\', c]) ++ cs := by simp [hs]
    refine ih hs' ?_ (map_eq_error.mp h)
    rw [hw, width_append, Nat.add_assoc]
    rfl
  | case6 _ c cs _ _ _ ih =>
    have hs' : source.toList = (before ++ [c]) ++ cs := by simp [hs]
    refine ih hs' ?_ (map_eq_error.mp h)
    rw [hw, width_append]
    rfl

/-- An error in a piece of text is at its start or inside a string. -/
theorem Piece.first_error_cut {file : String} {c : Char} {cs : List Char} {e : Error}
    (hs : source.toList = before ++ c :: cs) (h : Piece.first file (width before) c cs = .error e) :
    IsCut source e.offset := by
  have start : IsCut source (width before) := isCut_width hs
  unfold Piece.first at h
  split at h
  · cases h
  · split at h
    · cases h
    · split at h
      · split at h
        · cases h
          exact start
        · cases h
      · split at h
        · next hq =>
          subst hq
          have hs' : source.toList = (before ++ ['"']) ++ cs := by simp [hs]
          refine readString_error_cut start hs' ?_ (map_eq_error.mp h)
          rw [width_append]
          rfl
        · split at h
          · cases h
          · split at h
            · cases h
            · split at h
              · cases h
              · split at h
                · unfold Piece.operator at h
                  dsimp only at h
                  split at h
                  · cases h
                    exact start
                  · cases h
                · cases h
                  exact start

/-- What is known of the offsets in the tokens of a text, or in the error it has instead. -/
def Cuts (source : String) : Except Error (List Token) → Prop
  | .ok tokens => ∀ t ∈ tokens, IsCut source t.span.start.offset ∧ IsCut source t.span.stop.offset
  | .error e => IsCut source e.offset

/-- By induction on the text that is left: what was read of it is a number of whole characters. -/
theorem tokensFrom_cuts (file : String) {before : List Char} :
    ∀ cs : List Char, source.toList = before ++ cs →
      Cuts source (tokensFrom file (width before) cs)
  | [], hs => by
    rw [tokensFrom]
    have start := isCut_width hs
    exact List.forall_mem_cons.mpr ⟨⟨start, start⟩, by simp⟩
  | c :: cs, hs => by
    rw [tokensFrom_cons]
    cases hp : Piece.first file (width before) c cs with
    | error e => exact Piece.first_error_cut hs hp
    | ok piece =>
      have hs' : source.toList =
          (before ++ (c :: cs).take piece.length) ++ (c :: cs).drop piece.length := by
        rw [hs, List.append_assoc, List.take_append_drop]
      have shorter := Piece.first_length_pos hp
      have rest := tokensFrom_cuts file ((c :: cs).drop piece.length) hs'
      rw [width_append] at rest
      rw [ok_bind]
      dsimp only
      cases hr : tokensFrom file (width before + width ((c :: cs).take piece.length))
          ((c :: cs).drop piece.length) with
      | error e =>
        rw [hr] at rest
        exact rest
      | ok tokens =>
        rw [hr] at rest
        have stop := isCut_width hs'
        rw [width_append] at stop
        refine List.forall_mem_append.mpr ⟨fun t ht => ?_, rest⟩
        obtain ⟨p, -, rfl⟩ := Option.map_eq_some_iff.mp (Option.mem_toList.mp ht)
        exact ⟨isCut_width hs, stop⟩
termination_by cs => cs.length
decreasing_by simp only [List.length_drop, List.length_cons]; omega

theorem tokenize_cuts (file source : String) : Cuts source (tokenize file source) := by
  have hs : source.toList = [] ++ source.toList := rfl
  exact tokensFrom_cuts file source.toList hs

end Gauge
