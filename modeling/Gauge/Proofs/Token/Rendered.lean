import Gauge.Proofs.Syntax.Render
import Gauge.Proofs.Token.Tiling

/-!
# Proofs — tokens that are written are read again

The texts of any tokens, put in a row with white space behind each, are read as those tokens
(`tokenize_render`).  Comments may stand in the white space, and strings may hold anything: a quote,
a backslash and the characters that have an escape are written with one.

The blank behind a token is what ends it.  So each kind of token needs one fact, that the reader
takes its text up to a blank (`Lexeme.Valid.readFrom`); and a gap is skipped whatever it is made of
(`Gap.skip`).
-/

namespace Gauge

variable {c b : Char} {file : String} {offset : Nat} {cs : List Char}

/-! ### Text of tokens -/

/-- The letter that stands for a character behind a backslash. -/
def escape? : Char → Option Char
  | '\n' => some 'n'
  | '\t' => some 't'
  | '\r' => some 'r'
  | '\x00' => some '0'
  | '\\' => some '\\'
  | '"' => some '"'
  | _ => none

/-- The characters between the quotes of a string. -/
def escaped : List Char → List Char
  | [] => []
  | c :: cs =>
    match escape? c with
    | some d => '\\' :: d :: escaped cs
    | none => c :: escaped cs

namespace Lexeme

/-- How a token is written. -/
def text (l : Lexeme) : List Char :=
  if l.kind = .string then '"' :: (escaped l.value.toList ++ ['"']) else l.value.toList

/-- What a token can be. -/
inductive Valid : Lexeme → Prop where
  | reserved {p : String × TokenKind} (h : p ∈ TokenKind.reserved) : Valid ⟨p.2, p.1⟩
  | operator {p : String × TokenKind} (h : p ∈ TokenKind.operators) : Valid ⟨p.2, p.1⟩
  | mark {p : String × TokenKind} (h : p ∈ TokenKind.marks) : Valid ⟨p.2, p.1⟩
  | name {c : Char} {cs : List Char} (hc : isWordChar c = true) (hd : isDecimal c = false)
      (hcs : ∀ d ∈ cs, isWordChar d = true) (hn : TokenKind.IsName (String.ofList (c :: cs))) :
      Valid ⟨.identifier, String.ofList (c :: cs)⟩
  | number {c : Char} {cs : List Char} (hc : isDecimal c = true)
      (hcs : ∀ d ∈ cs, isWordChar d = true) :
      Valid ⟨.number, String.ofList (c :: cs)⟩
  | string (value : String) : Valid ⟨.string, value⟩

end Lexeme

variable {rest : List Char}

/-- White space, block comments and line comments with the newline that ends them. -/
inductive Filler : List Char → Prop where
  | nil : Filler []
  | blank {c : Char} {cs : List Char} (hc : isBlank c = true) (h : Filler cs) : Filler (c :: cs)
  | line {body cs : List Char} (hb : '\n' ∉ body) (h : Filler cs) :
      Filler ('/' :: '/' :: (body ++ '\n' :: cs))
  | block {body cs : List Char} (hb : ¬ ['*', '/'] <:+: body) (h : Filler cs) :
      Filler ('/' :: '*' :: (body ++ '*' :: '/' :: cs))

/-- What is put between tokens: it starts with white space. -/
structure Separator (cs : List Char) : Prop where
  filler : Filler cs
  starts : ∃ b rest, cs = b :: rest ∧ isBlank b = true

theorem Filler.gap {cs : List Char} (h : Filler cs) : Gap rest cs := by
  induction h with
  | nil => exact .nil
  | blank hc _ ih => exact .blank hc ih
  | line hb _ ih => exact .line hb rfl (.blank rfl ih)
  | block hb _ ih => exact .block hb ih

/-! ### Gaps are skipped -/

/-- A piece that is no token leaves no trace. -/
theorem tokensFrom_skip {offset n : Nat} (h : Piece.first file offset c cs = .ok (.skip (n + 1))) :
    tokensFrom file offset (c :: cs) =
      tokensFrom file (offset + width (c :: cs.take n)) (cs.drop n) := by
  rw [tokensFrom_cons, h, ok_bind]
  exact bind_pure (tokensFrom file (offset + width (c :: cs.take n)) (cs.drop n))

/-- White space is skipped in runs. -/
theorem tokensFrom_blanks (hc : isBlank c = true) :
    tokensFrom file offset (c :: cs) =
      tokensFrom file (offset + width (c :: cs.takeWhile isBlank)) (cs.dropWhile isBlank) := by
  have first : Piece.first file offset c cs = 
      .ok (.skip ((cs.takeWhile isBlank).length + 1)) := if_pos hc
  rw [tokensFrom_skip first, take_takeWhile, drop_takeWhile]

/-- A run of white space may as well be skipped one by one. -/
theorem tokensFrom_blank (hc : isBlank c = true) :
    tokensFrom file offset (c :: cs) = tokensFrom file (offset + c.utf8Size) cs := by
  rw [tokensFrom_blanks hc]
  cases cs with
  | nil => rfl
  | cons d cs =>
    by_cases hd : isBlank d = true
    · rw [tokensFrom_blanks hd]
      simp [hd, Nat.add_assoc]
    · simp [hd]

/-- A line comment is skipped up to the end of its line. -/
theorem tokensFrom_line {body : List Char} (hb : '\n' ∉ body)
    (hl : rest.head?.all (· = '\n') = true) :
    tokensFrom file offset ('/' :: '/' :: (body ++ rest)) =
      tokensFrom file (offset + width ('/' :: '/' :: body)) rest := by
  have run : (('/' :: body) ++ rest).takeWhile (· ≠ '\n') = '/' :: body := by
    refine takeWhile_append_of_stop ?_ (by simpa using hl)
    intro c hc
    rcases List.mem_cons.mp hc with rfl | hc
    · rfl
    · exact decide_eq_true fun h => hb (h ▸ hc)
  have first : Piece.first file offset '/' ('/' :: (body ++ rest)) =
      .ok (.skip (('/' :: body).length + 1)) := by
    rw [← run]
    rfl
  rw [tokensFrom_skip first, ← List.cons_append, List.take_left, List.drop_left]

/-- A block comment is skipped. -/
theorem tokensFrom_block {body : List Char} (hb : ¬ ['*', '/'] <:+: body) :
    tokensFrom file offset ('/' :: '*' :: (body ++ '*' :: '/' :: rest)) =
      tokensFrom file (offset + width ('/' :: '*' :: (body ++ ['*', '/']))) rest := by
  have stop : commentEnd? (body ++ '*' :: '/' :: rest) = some body.length :=
    commentEnd?_eq_some_iff.mpr ⟨body, rest, rfl, hb, rfl⟩
  have first : Piece.first file offset '/' ('*' :: (body ++ '*' :: '/' :: rest)) =
      .ok (.skip (body.length + 4)) := by
    simp [Piece.first, stop, show isBlank '/' = false from rfl]
  rw [tokensFrom_skip first]
  simp [List.take_length_add_append, List.drop_length_add_append]

/-- A gap is skipped, whatever it is made of. -/
theorem Gap.skip {gap : List Char} (h : Gap rest gap) :
    tokensFrom file offset (gap ++ rest) = tokensFrom file (offset + width gap) rest := by
  induction h generalizing offset with
  | nil => rfl
  | blank hc _ ih => rw [List.cons_append, tokensFrom_blank hc, ih, width_cons, Nat.add_assoc]
  | line hb hl _ ih =>
    rw [List.cons_append, List.cons_append, List.append_assoc, tokensFrom_line hb hl, ih]
    simp [Nat.add_assoc]
  | block hb _ ih =>
    rw [List.cons_append, List.cons_append, List.append_assoc, List.cons_append, List.cons_append,
      tokensFrom_block hb, ih]
    simp [Nat.add_assoc]

/-! ### Blanks end tokens -/

/-- No blank is a visible character of the basic alphabet. -/
theorem toNat_of_blank (h : isBlank b = true) : b.toNat ≤ 32 ∨ 128 ≤ b.toNat := by
  simp only [isBlank, CharClass.contains, CharClass.blank, List.any_cons, List.any_nil,
    Bool.or_false,
    Bool.or_eq_true, Bool.and_eq_true, decide_eq_true_eq] at h
  omega

theorem toNat_of_wordChar (h : isWordChar c = true) : 48 ≤ c.toNat ∧ c.toNat ≤ 122 := by
  simp only [isWordChar, Bool.or_eq_true, Bool.and_eq_true, decide_eq_true_eq, Char.le_def] at h
  rcases h with ((⟨h₁, h₂⟩ | ⟨h₁, h₂⟩) | ⟨h₁, h₂⟩) | rfl
  · have low : 48 ≤ c.toNat := h₁
    have high : c.toNat ≤ 57 := h₂
    omega
  · have low : 97 ≤ c.toNat := h₁
    have high : c.toNat ≤ 122 := h₂
    omega
  · have low : 65 ≤ c.toNat := h₁
    have high : c.toNat ≤ 90 := h₂
    omega
  · decide

theorem toNat_of_operatorChar (h : isOperatorChar c = true) : 33 ≤ c.toNat ∧ c.toNat ≤ 124 := by
  have chars : "-+*/%=!<>&|".toList.all (fun d => 33 ≤ d.toNat && d.toNat ≤ 124) = true := by decide
  simpa using List.all_eq_true.mp chars c (List.contains_iff_mem.mp h)

theorem wordChar_of_blank (h : isBlank b = true) : isWordChar b = false := by
  by_contra hw
  have hb := toNat_of_blank h
  have hc := toNat_of_wordChar (Bool.not_eq_false _ ▸ hw)
  omega

theorem operatorChar_of_blank (h : isBlank b = true) : isOperatorChar b = false := by
  by_contra hw
  have hb := toNat_of_blank h
  have hc := toNat_of_operatorChar (Bool.not_eq_false _ ▸ hw)
  omega

/-! ### Strings -/

theorem unescape?_of_escape? {c d : Char} (h : escape? c = some d) : unescape? d = some c := by
  unfold escape? at h
  split at h <;> cases h <;> rfl

theorem ne_of_escape?_eq_none (h : escape? c = none) : c ≠ '"' ∧ c ≠ '\\' := by
  constructor <;> rintro rfl <;> cases h

/-- Whatever a string holds, its text is read as what it holds. -/
theorem readString_escaped {opening offset : Nat} (value : List Char) :
    readString file opening offset (escaped value ++ '"' :: rest) =
      .ok (value, (escaped value).length + 1) := by
  induction value generalizing offset with
  | nil => rfl
  | cons c value ih =>
    unfold escaped
    cases he : escape? c with
    | some d =>
      dsimp only
      rw [List.cons_append, List.cons_append, readString, unescape?_of_escape? he]
      dsimp only
      rw [ih]
      rfl
    | none =>
      obtain ⟨hq, hb⟩ := ne_of_escape?_eq_none he
      have plain (offset : Nat) (cs : List Char) : readString file opening offset (c :: cs) =
          (readString file opening (offset + c.utf8Size) cs).map fun r => (c :: r.1, r.2 + 1) := by
        rw [readString] <;> simp_all
      dsimp only
      rw [List.cons_append, plain, ih]
      rfl

/-! ### Words, numbers and operators -/

namespace Piece

variable {file : String} {offset : Nat} {c : Char} {cs rest : List Char}

theorem isBlank_of_wordChar (h : isWordChar c = true) : isBlank c = false := by
  by_contra hb
  rw [wordChar_of_blank (Bool.not_eq_false _ ▸ hb)] at h
  cases h

theorem isBlank_of_operatorChar (h : isOperatorChar c = true) : isBlank c = false := by
  by_contra hb
  rw [operatorChar_of_blank (Bool.not_eq_false _ ▸ hb)] at h
  cases h

/-- Words and numbers are told apart by their first character, and both end before the first
character that no word has. -/
theorem first_wordChar (hc : isWordChar c = true) (hcs : ∀ d ∈ cs, isWordChar d = true)
    (hs : rest.head?.all (!isWordChar ·) = true) :
    Piece.first file offset c (cs ++ rest) =
      .ok (if isDecimal c then .verbatim .number (c :: cs) else .word (c :: cs)) := by
  have blank : isBlank c = false := isBlank_of_wordChar hc
  have slash : c ≠ '/' := by rintro rfl; cases hc
  have quote : c ≠ '"' := by rintro rfl; cases hc
  rw [Piece.first, takeWhile_append_of_stop hcs hs]
  by_cases hd : isDecimal c = true <;> simp [blank, slash, quote, hc, hd]

theorem wordChar_of_decimal (h : isDecimal c = true) : isWordChar c = true := by
  unfold isWordChar isDecimal at *
  simp [h]

theorem first_mark {kind : TokenKind} (h : TokenKind.ofMark? c = some kind) :
    Piece.first file offset c cs = .ok (.verbatim kind [c]) := by
  unfold TokenKind.ofMark? at h
  split at h <;> cases h <;> rfl

/-- No operator character starts a token of another kind, a comment apart. -/
theorem kind_of_operatorChar (h : isOperatorChar c = true) :
    c ≠ '"' ∧ isDecimal c = false ∧ isWordChar c = false ∧ TokenKind.ofMark? c = none := by
  have chars : "-+*/%=!<>&|".toList.all (fun d => d != '"' && !isDecimal d && !isWordChar d &&
      (TokenKind.ofMark? d).isNone) = true := by
    decide
  simpa [and_assoc] using List.all_eq_true.mp chars c (List.contains_iff_mem.mp h)

/-- What the table of operators promises: no operator holds the start of a comment, and only a lone
slash could become one. -/
theorem operators_spelled : ∀ p ∈ TokenKind.operators,
    p.1.toList.all isOperatorChar = true ∧ cutAtComment p.1.toList = p.1.toList ∧
      TokenKind.operators.lookup p.1 = some p.2 ∧
      (p.1.toList.head? = some '/' → p.1.toList.tail = []) := by
  decide

/-- An operator is read whole where no operator character follows it. -/
theorem first_operator {kind : TokenKind} (h : (String.ofList (c :: cs), kind) ∈
    TokenKind.operators)
    (hs : rest.head?.all (!isOperatorChar ·) = true) :
    Piece.first file offset c (cs ++ rest) = .ok (.verbatim kind (c :: cs)) := by
  obtain ⟨chars, cut, look, alone⟩ := operators_spelled _ h
  simp only [String.toList_ofList, List.all_eq_true] at chars cut alone
  have hc : isOperatorChar c = true := chars c (by simp)
  have blank : isBlank c = false := isBlank_of_operatorChar hc
  obtain ⟨quote, decimal, word, mark⟩ := kind_of_operatorChar hc
  -- A slash is alone, so what would make it a comment is in `rest`.
  have comment : ∀ d, isOperatorChar d = true → ¬ (c = '/' ∧ (cs ++ rest).head? = some d) := by
    rintro d hd ⟨rfl, hh⟩
    obtain rfl : cs = [] := alone rfl
    rw [List.nil_append] at hh
    simp [hh, hd] at hs
  have run : (c :: (cs ++ rest)).takeWhile isOperatorChar = c :: cs :=
    takeWhile_append_of_stop chars hs
  rw [Piece.first, if_neg (by simp [blank]), if_neg (comment '/' rfl), if_neg (comment '*' rfl),
    if_neg quote, if_neg (by simp [decimal]), if_neg (by simp [word]), mark]
  dsimp only
  rw [if_pos hc, operator, run, cut, look]
  simp [verbatim, Nat.add_comm]

end Piece

/-! ### Tokens are read -/

/-- Reserved words are words. -/
theorem reserved_spelled : ∀ p ∈ TokenKind.reserved,
    p.1.toList.all isWordChar = true ∧ p.1.toList.head?.all (!isDecimal ·) = true ∧
      TokenKind.ofWord p.1 = p.2 := by
  decide

theorem marks_spelled : ∀ p ∈ TokenKind.marks,
    p.1.toList.tail = [] ∧ p.1.toList.head?.bind TokenKind.ofMark? = some p.2 := by
  decide

/-- What stands in a table is written as it stands there. -/
theorem text_of_table : ∀ p ∈ TokenKind.reserved ++ TokenKind.operators ++ TokenKind.marks,
    p.1.toList ≠ [] ∧ p.2 ≠ .string := by
  decide

namespace Lexeme

/-- The reader takes a text up to any blank behind it, as this token. -/
def ReadFrom (l : Lexeme) (c : Char) (cs : List Char) : Prop :=
  ∀ (file : String) (offset : Nat) (b : Char) (rest : List Char), isBlank b = true →
    Piece.first file offset c (cs ++ b :: rest) = 
      .ok ⟨some (l.kind, l.value), cs.length + 1⟩

theorem exists_text {p : String × TokenKind}
    (h : p ∈ TokenKind.reserved ++ TokenKind.operators ++ TokenKind.marks) :
    ∃ c cs, text ⟨p.2, p.1⟩ = c :: cs ∧ p.1 = String.ofList (c :: cs) := by
  obtain ⟨hn, hs⟩ := text_of_table p h
  obtain ⟨c, cs, hp⟩ := List.exists_cons_of_ne_nil hn
  exact ⟨c, cs, by rw [text, if_neg hs, hp], by rw [← hp, String.ofList_toList]⟩

theorem readFrom_word (hcs : ∀ d ∈ c :: cs, isWordChar d = true)
    (hd : isDecimal c = false) : ReadFrom (.word (String.ofList (c :: cs))) c cs := by
  intro file offset b rest hb
  rw [Piece.first_wordChar (hcs c (by simp)) (fun d hd => hcs d (by simp [hd]))
    (by simp [wordChar_of_blank hb])]
  simp [hd, Piece.word, Piece.verbatim, Lexeme.word]

theorem readFrom_number (hc : isDecimal c = true)
    (hcs : ∀ d ∈ cs, isWordChar d = true) : ReadFrom ⟨.number, String.ofList (c :: cs)⟩ c cs := by
  intro file offset b rest hb
  rw [Piece.first_wordChar (Piece.wordChar_of_decimal hc) hcs (by simp [wordChar_of_blank hb])]
  simp [hc, Piece.verbatim]

theorem readFrom_operator {kind : TokenKind}
    (h : (String.ofList (c :: cs), kind) ∈ TokenKind.operators) :
    ReadFrom ⟨kind, String.ofList (c :: cs)⟩ c cs := by
  intro file offset b rest hb
  exact Piece.first_operator h (by simp [operatorChar_of_blank hb])

theorem readFrom_string (value : String) :
    ReadFrom ⟨.string, value⟩ '"' (escaped value.toList ++ ['"']) := by
  intro file offset b rest hb
  have first (cs : List Char) : Piece.first file offset '"' cs =
      (readString file offset (offset + 1) cs).map fun r =>
        ⟨some (.string, String.ofList r.1), r.2 + 1⟩ := rfl
  rw [first, List.append_assoc, List.singleton_append, readString_escaped]
  simp [Except.map]

/-- Every token has a text, and the reader takes it up to any blank behind it. -/
theorem Valid.readFrom {l : Lexeme} (h : l.Valid) : ∃ c cs, l.text = c :: cs ∧ l.ReadFrom c cs := by
  cases h with
  | @reserved p h =>
    obtain ⟨c, cs, ht, hv⟩ := exists_text (p := p) (by simp [h])
    obtain ⟨hcs, hd, hk⟩ := reserved_spelled p h
    refine ⟨c, cs, ht, ?_⟩
    rw [← hk, hv]
    rw [hv, String.toList_ofList] at hcs hd
    exact readFrom_word (List.all_eq_true.mp hcs) (by simpa using hd)
  | @operator p h =>
    obtain ⟨c, cs, ht, hv⟩ := exists_text (p := p) (by simp [h])
    refine ⟨c, cs, ht, ?_⟩
    rw [hv]
    exact readFrom_operator (hv ▸ h)
  | @mark p h =>
    obtain ⟨c, cs, ht, hv⟩ := exists_text (p := p) (by simp [h])
    obtain ⟨hcs, hc⟩ := marks_spelled p h
    refine ⟨c, cs, ht, ?_⟩
    rw [hv, String.toList_ofList] at hcs hc
    obtain rfl : cs = [] := hcs
    intro file offset b rest _
    rw [Piece.first_mark hc, hv]
    rfl
  | @name c cs hc hd hcs hn =>
    refine ⟨c, cs, String.toList_ofList, ?_⟩
    rw [← word_of_isName hn]
    exact readFrom_word (by simpa using ⟨hc, hcs⟩) hd
  | @number c cs hc hcs => exact ⟨c, cs, String.toList_ofList, readFrom_number hc hcs⟩
  | string value => exact ⟨_, _, rfl, readFrom_string value⟩

end Lexeme

/-- The text of a token and a blank: the token, and what is read from the blank on. -/
theorem tokensFrom_text {l : Lexeme} (h : l.Valid) {rest : List Char} (hb : isBlank b = true) :
    tokensFrom file offset (l.text ++ b :: rest) =
      (tokensFrom file (offset + width l.text) (b :: rest)).map
        (⟨l.kind, l.value, .inFile file offset (offset + width l.text)⟩ :: ·) := by
  obtain ⟨c, cs, ht, hr⟩ := h.readFrom
  rw [ht, List.cons_append, tokensFrom_cons, hr file offset b rest hb, ok_bind]
  simp [Piece.found, Functor.map]

/-- Tokens in a row, each with what is put behind it. -/
def rendered (row : List (Lexeme × List Char)) : List Char := row.flatMap fun p => p.1.text ++ p.2

theorem rendered_cons (p : Lexeme × List Char) (row : List (Lexeme × List Char)) :
    rendered (p :: row) = p.1.text ++ (p.2 ++ rendered row) := by
  simp [rendered]

/-- By induction on the row. -/
theorem tokensFrom_rendered {row : List (Lexeme × List Char)}
    (h : ∀ p ∈ row, p.1.Valid ∧ Separator p.2) (offset : Nat) :
    (tokensFrom file offset (rendered row)).map (List.map Token.lexeme) =
      .ok (row.map Prod.fst ++ [⟨.eof, "EOF"⟩]) := by
  induction row generalizing offset with
  | nil => simp [rendered, tokensFrom, Except.map, Token.lexeme, Token.eof]
  | cons p row ih =>
    obtain ⟨hv, hs⟩ := h p (by simp)
    obtain ⟨b, cs, hp, hb⟩ := hs.starts
    have step : tokensFrom file offset (p.1.text ++ (p.2 ++ rendered row)) =
        (tokensFrom file (offset + width p.1.text) (p.2 ++ rendered row)).map
          (⟨p.1.kind, p.1.value, .inFile file offset (offset + width p.1.text)⟩ :: ·) := by
      rw [hp]
      exact tokensFrom_text hv hb
    rw [rendered_cons, step, hs.filler.gap.skip]
    obtain ⟨tokens, ht, hl⟩ := map_eq_ok.mp (ih (fun q hq => h q (by simp [hq])) _)
    rw [ht]
    simp [Except.map, hl, Token.lexeme]

/-- Tokens that are written with white space, and any comments in it, before, between and behind
them are read again. -/
theorem tokenize_render {file : String} {first : List Char} {row : List (Lexeme × List Char)}
    (hf : Filler first)
    (hr : ∀ p ∈ row, p.1.Valid ∧ Separator p.2) :
    (tokenize file (String.ofList (first ++ rendered row))).map (List.map Token.lexeme) =
      .ok (row.map Prod.fst ++ [⟨.eof, "EOF"⟩]) := by
  rw [tokenize, String.toList_ofList, hf.gap.skip, tokensFrom_rendered hr]

/-- A comment may follow a slash after a blank, and a string may hold a quote and a comment. -/
theorem tokenize_render_quotient :
    (tokenize "m.g" "// q\n q / /* : */ 0x1F ;\t\"/*\\\"\\n\" ").map (List.map Token.lexeme) =
      .ok [⟨.identifier, "q"⟩, ⟨.slash, "/"⟩, ⟨.number, "0x1F"⟩, ⟨.semicolon, ";"⟩,
        ⟨.string, "/*\"\n"⟩,
        ⟨.eof, "EOF"⟩] := by
  have source : "// q\n q / /* : */ 0x1F ;\t\"/*\\\"\\n\" " =
      String.ofList ('/' :: '/' :: ([' ', 'q'] ++ '\n' :: [' ']) ++
        rendered [(⟨.identifier, "q"⟩, [' ']),
          (⟨.slash, "/"⟩, ' ' :: '/' :: '*' :: ([' ', ':', ' '] ++ '*' :: '/' :: [' '])),
          (⟨.number, "0x1F"⟩, [' ']), (⟨.semicolon, ";"⟩, ['\t']),
            (⟨.string, "/*\"\n"⟩, [' '])]) := by
    decide
  have space : Filler [' '] := .blank rfl .nil
  rw [source]
  refine tokenize_render (.line (by decide) space) fun p hp => ?_
  simp only [List.mem_cons, List.not_mem_nil, or_false] at hp
  rcases hp with rfl | rfl | rfl | rfl | rfl
  · exact ⟨.name rfl rfl (by simp) (by decide), space, _, _, rfl, rfl⟩
  · exact ⟨.operator (p := ("/", .slash)) (by decide), .blank rfl (.block (by decide) space), _, _,
      rfl, rfl⟩
  · exact ⟨.number rfl (List.all_eq_true.mp rfl), space, _, _, rfl, rfl⟩
  · exact ⟨.mark (p := (";", .semicolon)) (by decide), .blank rfl .nil, _, _, rfl, rfl⟩
  · exact ⟨.string _, space, _, _, rfl, rfl⟩

end Gauge
