import Gauge.Compile
import Gauge.Proofs.Scope
import Gauge.Proofs.Syntax.Cut
import Gauge.Proofs.Syntax.Nested

/-!
# Proofs — the names in a text

A word of a text starts with no digit, or it would be a number.  So the functions and structs of a
tree that was read from a text have names that start with no digit (`parse_sound`).

Where the names of the items come from is known from the pass over the readers (`parse_reads`); what
is added here is what tokens are names, and that a text which is no sequence of tokens is wrong in
the ways of a text too.
-/

namespace Gauge

variable {file : String}

/-- A name that starts with no digit. -/
def Spelled (name : String) : Prop := name.toList.head?.all (!isDecimal ·) = true

instance (name : String) : Decidable (Spelled name) := inferInstanceAs (Decidable (_ = true))

/-- A token that starts with no digit, if it is a name. -/
def Token.Spelled (t : Token) : Prop := t.kind = .identifier → Gauge.Spelled t.value

/-! ### Tokens -/

theorem readString_error_textual {opening offset : Nat} {cs : List Char} {e : Error}
    (h : readString file opening offset cs = .error e) :
    e.cause.IsTextual ∧ e.position.file = file := by
  fun_induction readString file opening offset cs with
  | case1 | case3 | case4 =>
    cases h
    exact ⟨trivial, rfl⟩
  | case2 => cases h
  | case5 _ _ _ _ _ ih | case6 _ _ _ _ _ _ ih => exact ih (map_eq_error.mp h)

/-- What is known of a piece of text, or of the error it has instead. -/
def Piece.Sound (file : String) : Except Error Piece → Prop
  | .ok piece => ∀ value, piece.token = some (.identifier, value) → Spelled value
  | .error e => e.cause.IsTextual ∧ e.position.file = file

/-- A word starts with no digit, and what is wrong is wrong with the text. -/
theorem Piece.sound_first (file : String) (offset : Nat) (c : Char) (cs : List Char) :
    Piece.Sound file (Piece.first file offset c cs) := by
  unfold Piece.first
  split
  · exact nofun
  split
  · exact nofun
  split
  · split
    · exact ⟨trivial, rfl⟩
    · exact nofun
  split
  · cases hs : readString file offset (offset + 1) cs with
    | error e => exact readString_error_textual hs
    | ok r =>
      intro value h
      cases h
  split
  · intro value h
    cases h
  split
  · next hd hw =>
    -- a word that does not start with a digit, the only piece that may be a name
    intro value h
    obtain ⟨-, rfl⟩ := Prod.mk.inj (Option.some.inj h)
    rw [Spelled, String.toList_ofList, List.head?_cons, Option.all_some, Bool.eq_false_iff.mpr hd]
    rfl
  split
  · next kind hm =>
    intro value h
    obtain ⟨rfl, -⟩ := Prod.mk.inj (Option.some.inj h)
    unfold TokenKind.ofMark? at hm
    split at hm <;> cases hm
  split
  · unfold Piece.operator
    dsimp only
    split
    · exact ⟨trivial, rfl⟩
    · next kind ho =>
      intro value h
      obtain ⟨rfl, -⟩ := Prod.mk.inj (Option.some.inj h)
      have kinds : ∀ o ∈ TokenKind.operators, o.2 ≠ .identifier := by decide
      exact absurd rfl (kinds _ (Scope.mem_of_lookup ho))
  · exact ⟨trivial, rfl⟩

/-- What is known of the tokens of a text, or of the error it has instead. -/
def Token.Sound (file : String) : Except Error (List Token) → Prop
  | .ok tokens => ∀ t ∈ tokens, t.Spelled
  | .error e => e.cause.IsTextual ∧ e.position.file = file

/-- By induction on the text that is left. -/
theorem sound_tokensFrom (file : String) :
    ∀ (offset : Nat) (cs : List Char), Token.Sound file (tokensFrom file offset cs)
  | offset, [] => by
    rw [tokensFrom]
    exact List.forall_mem_cons.mpr ⟨fun h => (by cases h), by simp⟩
  | offset, c :: cs => by
    rw [tokensFrom_cons]
    have sound := Piece.sound_first file offset c cs
    cases hp : Piece.first file offset c cs with
    | error e =>
      rw [hp] at sound
      exact sound
    | ok piece =>
      rw [hp] at sound
      have taken := Piece.first_length_pos hp
      have rest := sound_tokensFrom file (offset + width ((c :: cs).take piece.length))
        ((c :: cs).drop piece.length)
      rw [ok_bind]
      dsimp only
      cases hr : tokensFrom file (offset + width ((c :: cs).take piece.length))
          ((c :: cs).drop piece.length) with
      | error e =>
        rw [hr] at rest
        exact rest
      | ok tokens =>
        rw [hr] at rest
        refine List.forall_mem_append.mpr ⟨fun t ht => ?_, rest⟩
        obtain ⟨⟨kind, value⟩, hk, rfl⟩ := Option.map_eq_some_iff.mp (Option.mem_toList.mp ht)
        rintro rfl
        exact sound value hk
termination_by _ cs => cs.length
decreasing_by simp only [List.length_drop, List.length_cons]; omega

/-! ### Items -/

/-- The name of a function or a struct starts with no digit. -/
def Item.Spelled : Item → Prop
  | .function d | .struct d => Gauge.Spelled d.name

instance : ∀ i : Item, Decidable i.Spelled
  | .function d | .struct d => inferInstanceAs (Decidable (Gauge.Spelled d.name))

/-- The names of a program's functions and structs start with no digit. -/
def ModuleSyntax.Spelled (tree : ModuleSyntax) : Prop := ∀ i ∈ tree.items, i.Spelled

instance (tree : ModuleSyntax) : Decidable tree.Spelled :=
  inferInstanceAs (Decidable (∀ i ∈ tree.items, i.Spelled))

/-- A text that has no tokens is refused in its own file. -/
theorem tokenize_error_textual {source : String} {e : Error} (h : tokenize file source = .error e) :
    e.cause.IsTextual ∧ e.position.file = file := by
  have sound := sound_tokensFrom file 0 source.toList
  rw [show tokensFrom file 0 source.toList = .error e from h] at sound
  exact sound

theorem spelled_of_tokenize {source : String} {tokens : List Token}
    (h : tokenize file source = .ok tokens) : ∀ t ∈ tokens, t.Spelled := by
  have sound := sound_tokensFrom file 0 source.toList
  rw [show tokensFrom file 0 source.toList = .ok tokens from h] at sound
  exact sound

/-- A tree that is read from a text has names that start with no digit. -/
theorem spelled_of_parse {source : String} {tokens : List Token} {tree : ModuleSyntax}
    (h : tokenize file source = .ok tokens) (ht : parse file tokens = .ok tree) : tree.Spelled := by
  obtain ⟨-, -, named⟩ := parse_reads ht
  intro i hi
  obtain ⟨t, hm, hk, hv⟩ := named (laid_of_tokenize h) i hi
  have spelled := spelled_of_tokenize h t hm hk
  rw [hv] at spelled
  cases i <;> exact spelled

end Gauge
