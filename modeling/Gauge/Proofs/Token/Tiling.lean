import Mathlib.Data.String.Basic
import Gauge.Proofs.Scope
import Gauge.Proofs.Token.Gap

/-!
# Proofs — tokens tile the text

A text that has tokens is a row of gaps and tokens, in turn, and nothing is left out or read twice
(`tokenize_tiles`).  `Tiled` says so of characters, where it follows the reader piece by piece;
`Tiles` says it of offsets, as a list of facts about the spans of the tokens.

The reader is a loop over the text.  `rounds` runs it for a number of rounds; as every round takes
at least one character, it ends within one round more than there are characters.
-/

namespace Gauge

variable {cs : List Char} {offset : Nat} {file source : String} {tokens : List Token}

/-! ### Text of spans -/

/-- The characters between two offsets of a text. -/
def textBetween (source : String) (start stop : Nat) : List Char :=
  (String.Pos.Raw.extract source ⟨start⟩ ⟨stop⟩).toList

theorem width_eq_utf8Len (cs : List Char) : width cs = String.utf8Len cs := by
  induction cs with
  | nil => rfl
  | cons c cs ih => rw [width_cons, String.utf8Len_cons, ih, Nat.add_comm]

theorem width_toList (source : String) : width source.toList = source.utf8ByteSize := by
  rw [← utf8ByteSize_ofList, String.ofList_toList]

theorem textBetween_eq {before text after : List Char}
    (h : source.toList = before ++ (text ++ after)) :
    textBetween source (width before) (width before + width text) = text := by
  have extract := String.extract_of_valid before text after
  rw [List.append_assoc, ← h, String.ofList_toList, ← width_eq_utf8Len,
    ← width_eq_utf8Len] at extract
  rw [textBetween, extract, String.toList_ofList]

/-- The characters from an offset on. -/
theorem textBetween_rest {before rest : List Char} (h : source.toList = before ++ rest) :
    textBetween source (width before) source.utf8ByteSize = rest := by
  have whole : source.toList = before ++ (rest ++ []) := by simpa using h
  have text := textBetween_eq whole
  rwa [← width_append, ← h, width_toList] at text

theorem width_pos (h : cs ≠ []) : 0 < width cs := by
  cases cs with
  | nil => exact absurd rfl h
  | cons c cs =>
    rw [width_cons]
    exact Nat.add_pos_left c.utf8Size_pos _

/-! ### String literals -/

/-- What some characters between two quotes stand for. -/
inductive Unescapes : List Char → List Char → Prop where
  | nil : Unescapes [] []
  | plain {c : Char} {body value : List Char}
      (hq : c ≠ '"') (hb : c ≠ '\\') (h : Unescapes body value) :
      Unescapes (c :: body) (c :: value)
  | escape {c d : Char} {body value : List Char} (hd : unescape? c = some d)
      (h : Unescapes body value) :
      Unescapes ('\\' :: c :: body) (d :: value)

/-- A string literal, with its quotes, and its value. -/
def Quotes (text value : List Char) : Prop :=
  ∃ body, text = '"' :: (body ++ ['"']) ∧ Unescapes body value

/-- The reader of strings takes the characters up to the closing quote, and gives what they stand
for. -/
theorem unescapes_of_readString {opening offset n : Nat} {cs value : List Char}
    (h : readString file opening offset cs = .ok (value, n)) :
    ∃ body, cs.take n = body ++ ['"'] ∧ Unescapes body value := by
  fun_induction readString file opening offset cs generalizing value n with
  | case1 | case3 | case4 => cases h
  | case2 =>
    cases h
    exact ⟨[], rfl, .nil⟩
  | case5 offset c cs d hd ih =>
    obtain ⟨⟨v, m⟩, hr, he⟩ := map_eq_ok.mp h
    cases he
    obtain ⟨body, hb, hu⟩ := ih hr
    exact ⟨'\\' :: c :: body, by rw [List.take_succ_cons, List.take_succ_cons, hb]; rfl,
      .escape hd hu⟩
  | case6 offset c cs hq hb hb' ih =>
    obtain ⟨⟨v, m⟩, hr, he⟩ := map_eq_ok.mp h
    cases he
    obtain ⟨body, hbody, hu⟩ := ih hr
    refine ⟨c :: body, by rw [List.take_succ_cons, hbody]; rfl, .plain hq ?_ hu⟩
    rintro rfl
    -- a backslash is followed by something, or the text would end inside the string
    cases cs with
    | nil => exact hb rfl rfl
    | cons d cs => exact hb' d cs rfl rfl

/-! ### Pieces -/

/-- The text of a token of some kind and value. -/
structure Spells (kind : TokenKind) (value : String) (text : List Char) : Prop where
  filled : text ≠ []
  inner : kind ≠ .eof
  verbatim : kind ≠ .string → value = String.ofList text
  quoted : kind = .string → Quotes text value.toList

theorem Spells.of_verbatim {kind : TokenKind} {text : List Char} (hf : text ≠ []) (he : kind ≠ .eof)
    (hs : kind ≠ .string) : Spells kind (String.ofList text) text :=
  ⟨hf, he, fun _ => rfl, fun h => absurd h hs⟩

theorem TokenKind.ofWord_inner (s : String) : ofWord s ≠ .eof ∧ ofWord s ≠ .string := by
  unfold ofWord
  cases h : reserved.lookup s with
  | none => exact ⟨nofun, nofun⟩
  | some kind =>
    have kinds : ∀ p ∈ reserved, p.2 ≠ .eof ∧ p.2 ≠ .string := by decide
    exact kinds _ (Scope.mem_of_lookup h)

theorem cutAtComment_isPrefix (cs : List Char) : cutAtComment cs <+: cs := by
  fun_induction cutAtComment cs with
  | case1 | case2 | case3 => exact List.nil_prefix
  | case4 c cs _ _ ih => exact List.cons_prefix_cons.mpr ⟨rfl, ih⟩

/-- The token that an operator is. -/
theorem Piece.spells_operator {piece : Piece} (h : Piece.operator file offset cs = .ok piece) :
    ∃ kind value, piece.token = some (kind, value) ∧ Spells kind value (cs.take piece.length) := by
  unfold Piece.operator at h
  dsimp only at h
  split at h
  · cases h
  next kind hk =>
    cases h
    have kinds : ∀ p ∈ TokenKind.operators, p.1 ≠ "" ∧ p.2 ≠ .eof ∧ p.2 ≠ .string := by decide
    obtain ⟨hne, he, hs⟩ := kinds _ (Scope.mem_of_lookup hk)
    -- the run is a prefix of the text, so it is what is taken
    have hp : cutAtComment (cs.takeWhile isOperatorChar) <+: cs :=
      (cutAtComment_isPrefix _).trans (List.takeWhile_prefix _)
    refine ⟨kind, _, rfl, ?_⟩
    rw [String.length_ofList, ← List.prefix_iff_eq_take.mp hp]
    exact .of_verbatim (fun empty => hne (congrArg String.ofList empty)) he hs

/-- What a piece of text is, in front of the rest. -/
def Piece.Fits (piece : Piece) (text rest : List Char) : Prop :=
  match piece.token with
  | none => Gap rest text
  | some (kind, value) => Spells kind value text

/-- Each kind of piece is what its first character says. -/
theorem Piece.first_fits {c : Char} {piece : Piece} (h : Piece.first file offset c cs = .ok piece) :
    piece.Fits ((c :: cs).take piece.length) ((c :: cs).drop piece.length) := by
  unfold Piece.first at h
  split at h
  · next hc =>
    cases h
    show Gap _ (c :: cs.take (cs.takeWhile isBlank).length)
    rw [take_takeWhile]
    exact .blank hc (.of_blanks fun d hd => List.mem_takeWhile_imp hd)
  split at h
  · next hc =>
    obtain ⟨rfl, hcs⟩ := hc
    cases h
    obtain ⟨cs, rfl⟩ := List.head?_eq_some_iff.mp hcs
    show Gap (('/' :: cs).drop (('/' :: cs).takeWhile (· ≠ '\n')).length)
      ('/' :: ('/' :: cs).take (('/' :: cs).takeWhile (· ≠ '\n')).length)
    rw [take_takeWhile, drop_takeWhile]
    show Gap (cs.dropWhile (· ≠ '\n')) ('/' :: '/' :: cs.takeWhile (· ≠ '\n'))
    rw [← List.append_nil (cs.takeWhile _)]
    refine .line ?_ ?_ .nil
    · intro hn
      simpa using List.mem_takeWhile_imp hn
    · rw [List.nil_append]
      rcases dropWhile_ne '\n' cs with h | ⟨tail, h⟩ <;> rw [h] <;> rfl
  split at h
  · next hc =>
    obtain ⟨rfl, hcs⟩ := hc
    obtain ⟨cs, rfl⟩ := List.head?_eq_some_iff.mp hcs
    split at h
    · cases h
    next n hn =>
      cases h
      obtain ⟨body, rest, hcs, hb, rfl⟩ := commentEnd?_eq_some_iff.mp hn
      cases hcs
      show Gap ((body ++ '*' :: '/' :: rest).drop (body.length + 2))
        ('/' :: '*' :: (body ++ '*' :: '/' :: rest).take (body.length + 2))
      rw [List.drop_length_add_append, List.take_length_add_append]
      exact .block hb .nil
  split at h
  · next hc =>
    subst hc
    obtain ⟨⟨value, n⟩, hr, he⟩ := map_eq_ok.mp h
    cases he
    obtain ⟨body, hbody, hu⟩ := unescapes_of_readString hr
    refine ⟨List.cons_ne_nil _ _, by simp, fun h => absurd rfl h, fun _ => ⟨body, ?_, ?_⟩⟩
    · exact congrArg ('"' :: ·) hbody
    · rwa [String.toList_ofList]
  split at h
  · cases h
    show Spells .number _ (c :: cs.take (cs.takeWhile isWordChar).length)
    rw [take_takeWhile]
    exact .of_verbatim (List.cons_ne_nil _ _) (by simp) (by simp)
  split at h
  · cases h
    show Spells (.ofWord _) _ (c :: cs.take (cs.takeWhile isWordChar).length)
    rw [take_takeWhile]
    obtain ⟨he, hs⟩ := TokenKind.ofWord_inner (String.ofList (c :: cs.takeWhile isWordChar))
    exact .of_verbatim (List.cons_ne_nil _ _) he hs
  split at h
  · next kind hk =>
    cases h
    have hk : kind ≠ .eof ∧ kind ≠ .string := by
      unfold TokenKind.ofMark? at hk
      split at hk <;> cases hk <;> simp
    exact .of_verbatim (List.cons_ne_nil _ _) hk.1 hk.2
  split at h
  · obtain ⟨kind, value, ht, spells⟩ := Piece.spells_operator h
    rw [Piece.Fits, ht]
    exact spells
  · cases h

/-! ### Tiled texts -/

/-- The text, which starts at an offset in a file, is a row of gaps and tokens that ends with a gap.
-/
inductive Tiled (file : String) : Nat → List Char → List Token → Prop where
  | finish {offset : Nat} {gap : List Char} (hg : Gap [] gap) :
      Tiled file offset gap [.eof ⟨offset + width gap, file⟩]
  | token {offset : Nat} {gap text rest : List Char} {kind : TokenKind} {value : String}
      {tokens : List Token} (hg : Gap (text ++ rest) gap) (ht : Spells kind value text)
      (h : Tiled file (offset + width gap + width text) rest tokens) :
      Tiled file offset (gap ++ (text ++ rest))
        (⟨kind, value, .inFile file (offset + width gap) (offset + width gap + width text)⟩ ::
          tokens)

/-- A gap in front of a tiled text is part of its first one. -/
theorem Tiled.skip {gap cs : List Char} (hg : Gap cs gap)
    (h : Tiled file (offset + width gap) cs tokens) : Tiled file offset (gap ++ cs) tokens := by
  cases h with
  | finish hg' =>
    have hgap : Gap [] (gap ++ cs) := .append (by rwa [List.append_nil]) hg'
    have tiled : Tiled file offset (gap ++ cs) _ := .finish hgap
    rwa [width_append, ← Nat.add_assoc] at tiled
  | @token _ gap' text rest _ _ _ hg' ht hr =>
    have hgap : Gap (text ++ rest) (gap ++ gap') := .append hg hg'
    rw [← List.append_assoc]
    have place : offset + width (gap ++ gap') = offset + width gap + width gap' := by
      rw [width_append, Nat.add_assoc]
    have tiled : Tiled file offset (gap ++ gap' ++ (text ++ rest)) _ := .token hgap ht (place ▸ hr)
    rwa [place] at tiled

/-- By induction on the text that is left: each piece is a gap or a token, in front of the rest. -/
theorem tokensFrom_tiled (h : tokensFrom file offset cs = .ok tokens) :
    Tiled file offset cs tokens := by
  induction hn : cs.length using Nat.strong_induction_on generalizing offset cs tokens with
  | _ n ih =>
  cases cs with
  | nil =>
    rw [tokensFrom] at h
    cases h
    exact Tiled.finish .nil
  | cons c cs =>
    rw [tokensFrom_cons] at h
    obtain ⟨piece, hp, h⟩ := bind_eq_ok.mp h
    obtain ⟨rest, hr, h⟩ := bind_eq_ok.mp h
    cases h
    have taken := Piece.first_length_pos hp
    have shorter : ((c :: cs).drop piece.length).length < n := by
      simp only [← hn, List.length_drop, List.length_cons]
      omega
    have tiled := ih _ shorter hr rfl
    have fits := Piece.first_fits hp
    generalize ht : (c :: cs).take piece.length = text at *
    generalize hd : (c :: cs).drop piece.length = after at *
    have whole : c :: cs = text ++ after := by rw [← ht, ← hd, List.take_append_drop]
    rw [whole]
    unfold Piece.Fits at fits
    unfold Piece.found
    cases ht : piece.token with
    | none =>
      rw [ht] at fits
      exact tiled.skip fits
    | some t =>
      rw [ht] at fits
      have bare : Gap (text ++ after) [] := .nil
      exact .token bare fits tiled

/-! ### Tiles by their offsets -/

namespace Tiled

variable {offset : Nat} {cs : List Char} {tokens : List Token}

/-- The tokens stand within the text, and none of them is empty but the last. -/
theorem within (h : Tiled file offset cs tokens) : ∀ t ∈ tokens, offset ≤ t.span.start.offset ∧
    t.span.start.offset ≤ t.span.stop.offset ∧ t.span.stop.offset ≤ offset + width cs ∧
      (t.kind ≠ .eof → t.span.start.offset < t.span.stop.offset) := by
  induction h with
  | finish _ =>
    intro t ht
    obtain rfl := List.mem_singleton.mp ht
    simp [Token.eof]
  | @token offset gap text rest kind value tokens _ ht _ ih =>
    have filled := width_pos ht.filled
    simp only [width_append]
    intro t hm
    rcases List.mem_cons.mp hm with rfl | hm
    · dsimp only [Span.inFile]
      omega
    · obtain ⟨h₁, h₂, h₃, h₄⟩ := ih t hm
      exact ⟨by omega, h₂, by omega, h₄⟩

theorem inFile (h : Tiled file offset cs tokens) :
    ∀ t ∈ tokens, t.span.start.file = file ∧ t.span.stop.file = file := by
  induction h with
  | finish _ => exact List.forall_mem_singleton.mpr ⟨rfl, rfl⟩
  | token _ _ _ ih => exact List.forall_mem_cons.mpr ⟨⟨rfl, rfl⟩, ih⟩

theorem ordered (h : Tiled file offset cs tokens) : tokens.Pairwise fun a b =>
    a.span.start.offset < b.span.start.offset ∧ a.span.stop.offset ≤ b.span.start.offset := by
  induction h with
  | finish _ => exact List.pairwise_singleton _ _
  | @token offset gap text rest kind value tokens _ ht hr ih =>
    refine List.pairwise_cons.mpr ⟨fun b hb => ?_, ih⟩
    have filled := width_pos ht.filled
    have behind := (hr.within b hb).1
    dsimp only [Span.inFile]
    omega

/-- The last token, and no other, is the one at the end of the text. -/
theorem last (h : Tiled file offset cs tokens) :
    ∃ inner, tokens = inner ++ [.eof ⟨offset + width cs, file⟩] ∧ ∀ t ∈ inner, t.kind ≠ .eof := by
  induction h with
  | finish _ => exact ⟨[], rfl, nofun⟩
  | @token offset gap text rest kind value tokens _ ht _ ih =>
    obtain ⟨inner, rfl, hi⟩ := ih
    have place : offset + width gap + width text + width rest =
        offset + width (gap ++ (text ++ rest)) := by
      simp only [width_append, Nat.add_assoc]
    rw [place, ← List.cons_append]
    exact ⟨_, rfl, List.forall_mem_cons.mpr ⟨ht.inner, hi⟩⟩

/-- Each token has the text that its span covers. -/
theorem spells {before : List Char} (h : Tiled file offset cs tokens)
    (hs : source.toList = before ++ cs) (ho : offset = width before) : ∀ t ∈ tokens, t.kind ≠ .eof →
      Spells t.kind t.value (textBetween source t.span.start.offset t.span.stop.offset) := by
  induction h generalizing before with
  | finish _ =>
    intro t ht he
    obtain rfl := List.mem_singleton.mp ht
    exact absurd rfl he
  | @token offset gap text rest kind value tokens _ ht hr ih =>
    subst ho
    intro t hm he
    rcases List.mem_cons.mp hm with rfl | hm
    · have hs' : source.toList = (before ++ gap) ++ (text ++ rest) := by simp [hs]
      have text := textBetween_eq hs'
      rw [width_append] at text
      dsimp only [Span.inFile]
      rwa [text]
    · have hs' : source.toList = (before ++ (gap ++ text)) ++ rest := by simp [hs]
      exact ih hs' (by simp [Nat.add_assoc]) t hm he

/-- Where the gaps of the text are: each from the end of a token, or the start of the text, to the
start of the next. -/
theorem gaps {before : List Char} (h : Tiled file offset cs tokens)
    (hs : source.toList = before ++ cs) (ho : offset = width before) :
    ∀ p ∈ (offset :: tokens.map (·.span.stop.offset)).zip (tokens.map (·.span.start.offset)),
      Gap (textBetween source p.2 source.utf8ByteSize) (textBetween source p.1 p.2) := by
  induction h generalizing before with
  | @finish offset gap hg =>
    subst ho
    intro p hp
    obtain rfl := List.mem_singleton.mp hp
    have hs' : source.toList = before ++ (gap ++ []) := by rwa [List.append_nil]
    have text := textBetween_eq hs'
    rw [← List.append_assoc] at hs'
    have rest := textBetween_rest hs'
    rw [width_append] at rest
    show Gap (textBetween source (width before + width gap) _)
      (textBetween source (width before) (width before + width gap))
    rwa [text, rest]
  | @token offset gap text rest kind value tokens hg ht hr ih =>
    subst ho
    simp only [List.map_cons, List.zip_cons_cons]
    refine List.forall_mem_cons.mpr ⟨?_, ?_⟩
    · have hs' : source.toList = (before ++ gap) ++ (text ++ rest) := by simp [hs]
      have rest := textBetween_rest hs'
      rw [width_append] at rest
      dsimp only [Span.inFile]
      rwa [textBetween_eq hs, rest]
    · have hs' : source.toList = (before ++ (gap ++ text)) ++ rest := by simp [hs]
      exact ih hs' (by simp [Nat.add_assoc])

end Tiled

/-- The tokens of a text by their spans: they are in its file, in order and apart, within the text
and between its characters; the text of each is its value, or a literal for it; what stands between
them, and in front of the first, are white space and comments; and the last one, at the end of the
text, is the only one of its kind. -/
structure Tiles (file source : String) (tokens : List Token) : Prop where
  inFile : ∀ t ∈ tokens, t.span.start.file = file ∧ t.span.stop.file = file
  ordered : tokens.Pairwise fun a b => a.span.start.offset < b.span.start.offset ∧
    a.span.stop.offset ≤ b.span.start.offset
  inside : ∀ t ∈ tokens, t.span.start.offset ≤ t.span.stop.offset ∧
    t.span.stop.offset ≤ source.utf8ByteSize
  cut : ∀ t ∈ tokens, IsCut source t.span.start.offset ∧ IsCut source t.span.stop.offset
  filled : ∀ t ∈ tokens, t.kind ≠ .eof → t.span.start.offset < t.span.stop.offset
  verbatim : ∀ t ∈ tokens, t.kind ≠ .string → t.kind ≠ .eof →
    t.value.toList = textBetween source t.span.start.offset t.span.stop.offset
  quoted : ∀ t ∈ tokens, t.kind = .string →
    Quotes (textBetween source t.span.start.offset t.span.stop.offset) t.value.toList
  gaps : ∀ p ∈ (0 :: tokens.map (·.span.stop.offset)).zip (tokens.map (·.span.start.offset)),
    Gap (textBetween source p.2 source.utf8ByteSize) (textBetween source p.1 p.2)
  last : ∃ inner, tokens = inner ++ [.eof ⟨source.utf8ByteSize, file⟩] ∧ ∀ t ∈ inner, t.kind ≠ .eof

/-- The offsets follow from the characters. -/
theorem Tiled.tiles (h : Tiled file 0 source.toList tokens)
    (hc : ∀ t ∈ tokens, IsCut source t.span.start.offset ∧ IsCut source t.span.stop.offset) :
    Tiles file source tokens where
  inFile := h.inFile
  ordered := h.ordered
  inside t ht := by
    obtain ⟨-, h₁, h₂, -⟩ := h.within t ht
    rw [Nat.zero_add, width_toList] at h₂
    exact ⟨h₁, h₂⟩
  cut := hc
  filled t ht := (h.within t ht).2.2.2
  verbatim t ht hs he := by
    rw [(h.spells (List.nil_append _).symm rfl t ht he).verbatim hs, String.toList_ofList]
  quoted t ht hs := by
    have he : t.kind ≠ .eof := by
      rw [hs]
      exact nofun
    exact (h.spells (List.nil_append _).symm rfl t ht he).quoted hs
  gaps := h.gaps (List.nil_append _).symm rfl
  last := by
    obtain ⟨inner, hi, hk⟩ := h.last
    rw [Nat.zero_add, width_toList] at hi
    exact ⟨inner, hi, hk⟩

/-! ### The loop -/

/-- The loop of the reader, for a number of rounds: each takes the next piece of the text, and the
loop ends with the text or at an error.  No answer is given if the rounds are used up before. -/
def rounds (file : String) :
    Nat → List Token → Nat → List Char → Option (Except Error (List Token))
  | 0, _, _, _ => none
  | _ + 1, read, offset, [] => some (.ok (read ++ [.eof ⟨offset, file⟩]))
  | n + 1, read, offset, c :: cs =>
    match Piece.first file offset c cs with
    | .error e => some (.error e)
    | .ok piece =>
      let stop := offset + width ((c :: cs).take piece.length)
      rounds file n (read ++ piece.found (.inFile file offset stop)) stop
        ((c :: cs).drop piece.length)

/-- Every round takes a character, so the loop ends. -/
theorem rounds_eq_some {n : Nat} {read : List Token} (hn : cs.length < n) :
    rounds file n read offset cs = some ((tokensFrom file offset cs).map (read ++ ·)) := by
  induction n generalizing read offset cs with
  | zero => exact absurd hn (Nat.not_lt_zero _)
  | succ n ih =>
    cases cs with
    | nil => rw [rounds, tokensFrom]; rfl
    | cons c cs =>
      rw [rounds, tokensFrom_cons]
      cases hp : Piece.first file offset c cs with
      | error e => rfl
      | ok piece =>
        have taken := Piece.first_length_pos hp
        have shorter : ((c :: cs).drop piece.length).length < n := by
          simp only [List.length_drop, List.length_cons] at hn ⊢
          omega
        dsimp only
        rw [ih shorter, ok_bind]
        cases tokensFrom file _ ((c :: cs).drop piece.length) with
        | error e => rfl
        | ok rest =>
          rw [ok_bind]
          exact congrArg (some ∘ Except.ok) (List.append_assoc _ _ _)

/-- **Tokens tile the text.**  The loop of the reader ends on every text; and if the text has
tokens, they and the gaps between them are the whole of it. -/
theorem tokenize_tiles (file source : String) :
    (∀ n, source.length < n → rounds file n [] 0 source.toList = some (tokenize file source)) ∧
      ∀ tokens, tokenize file source = .ok tokens → Tiles file source tokens := by
  constructor
  · intro n hn
    rw [rounds_eq_some (by rwa [String.length_toList])]
    show some ((tokenize file source).map _) = _
    cases tokenize file source <;> rfl
  · intro tokens h
    have cuts := tokenize_cuts file source
    rw [h] at cuts
    exact (tokensFrom_tiled h).tiles cuts

/-- A text with comments of both kinds, a string with escapes and a character of two bytes. -/
theorem tokenize_tiles_commented :
    let source := "f(\"\\té\")/*é*/-1 //."
    let at_ (kind : TokenKind) (value : String) (start stop : Nat) : Token :=
      ⟨kind, value, .inFile "m.g" start stop⟩
    let tokens : List Token :=
      [at_ .identifier "f" 0 1, at_ .openParen "(" 1 2, at_ .string "\té" 2 8,
      at_ .closeParen ")" 8 9, at_ .dash "-" 15 16, at_ .number "1" 16 17, .eof ⟨21, "m.g"⟩]
    tokenize "m.g" source = .ok tokens ∧ Tiles "m.g" source tokens := by
  intro source at_ tokens
  obtain ⟨loop, tiles⟩ := tokenize_tiles "m.g" source
  have run : rounds "m.g" 20 [] 0 source.toList = some (.ok tokens) := by decide +kernel
  have h : tokenize "m.g" source = .ok tokens := by
    rw [loop 20 (by decide)] at run
    exact Option.some.inj run
  exact ⟨h, tiles tokens h⟩

end Gauge
