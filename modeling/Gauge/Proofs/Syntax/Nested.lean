import Gauge.Proofs.Syntax.Stopping
import Gauge.Proofs.Token.Tiling

/-!
# Proofs — spans nest

The parts of a tree that was read from a text cover whole tokens, contain all that is in them, and
do not overlap (`parse_nested`).  `Extent.Covers`, which the readers keep up, says so from the top
down: the parts of each part follow one another between its start and its end.  So every part starts
at a token, and a text that cannot be read is refused at one.
-/

namespace Gauge

variable {file source : String} {tokens : List Token}

/-! ### Parts of parts -/

/-- A part of a tree, however deep, or the tree itself. -/
inductive Extent.Within : Extent → Extent → Prop where
  | self (e : Extent) : Within e e
  | part {e f : Extent} {s : Span} {ps : List Extent} : f ∈ ps → Within e f → Within e (.node s ps)

namespace Extent

variable {e f : Extent} {es : List Extent} {lo hi : Position}

theorem Between.mem (h : Between tokens lo hi es) :
    ∀ e ∈ es, e.Covers tokens ∧ lo ≤ e.span.start ∧ e.span.stop ≤ hi := by
  induction es generalizing lo with
  | nil => simp
  | cons e es ih =>
    obtain ⟨covers, first, last, rest⟩ := h
    refine List.forall_mem_cons.mpr ⟨⟨covers, first, last⟩, fun f hf => ?_⟩
    obtain ⟨covers', first', last'⟩ := ih rest f hf
    exact ⟨covers', (first.trans covers.filled.le).trans first', last'⟩

theorem Between.pairwise (h : Between tokens lo hi es) :
    es.Pairwise fun a b => a.span.stop ≤ b.span.start := by
  induction es generalizing lo with
  | nil => exact .nil
  | cons e es ih =>
    exact List.pairwise_cons.mpr ⟨fun f hf => (h.2.2.2.mem f hf).2.1, ih h.2.2.2⟩

/-- All parts cover tokens and lie within the whole. -/
theorem Covers.within (hw : e.Within f) (h : f.Covers tokens) :
    e.Covers tokens ∧ f.span.start ≤ e.span.start ∧ e.span.stop ≤ f.span.stop := by
  induction hw with
  | self => exact ⟨h, le_refl _, le_refl _⟩
  | part hf _ ih =>
    obtain ⟨covers, first, last⟩ := h.between.mem _ hf
    obtain ⟨covers', first', last'⟩ := ih covers
    exact ⟨covers', first.trans first', last'.trans last⟩

mutual

theorem Covers.placed {L : Leeway} (hL : ∀ p, Begins tokens p → L p) :
    ∀ {e : Extent}, e.Covers tokens → e.Placed L
  | .node _ _, h => ⟨hL _ h.1, Between.placed hL h.2.2.2⟩

theorem Between.placed {L : Leeway} (hL : ∀ p, Begins tokens p → L p) :
    ∀ {es : List Extent} {lo hi : Position}, Between tokens lo hi es → PlacedAll L es
  | [], _, _, _ => trivial
  | _ :: _, _, _, h => ⟨h.1.placed hL, Between.placed hL h.2.2.2⟩

end

end Extent

/-! ### Texts -/

/-- The tokens of a text, in its order and in front of its end. -/
theorem Tiled.body {offset : Nat} {cs : List Char} (h : Tiled file offset cs tokens) :
    ∃ body finish, tokens = body ++ [.eof finish] ∧ (∀ t ∈ body, t.kind ≠ .eof) ∧
      Token.Ordered ⟨offset, file⟩ finish body := by
  induction h with
  | finish _ => exact ⟨[], _, rfl, by simp, Nat.le_add_right _ _⟩
  | token _ ht _ ih =>
    obtain ⟨body, finish, rfl, inner, ordered⟩ := ih
    have filled := width_pos ht.filled
    exact ⟨_ :: body, finish, rfl, List.forall_mem_cons.mpr ⟨ht.inner, inner⟩, Nat.le_add_right _ _,
      Nat.lt_add_of_pos_right filled, ordered⟩

theorem isStream_of_tokenize (h : tokenize file source = .ok tokens) : IsStream tokens := by
  obtain ⟨body, finish, rfl, inner, -⟩ := (tokensFrom_tiled h).body
  exact ⟨body, _, rfl, rfl, inner⟩

theorem laid_of_tokenize (h : tokenize file source = .ok tokens) :
    (Cursor.start file tokens).Laid tokens := by
  obtain ⟨body, finish, rfl, inner, ordered⟩ := (tokensFrom_tiled h).body
  rw [Cursor.start_append rfl inner]
  exact ⟨fun t ht => by simp [ht], by simp [Token.eof], ordered, fun h =>
    absurd h (Nat.lt_irrefl 0)⟩

variable {m : ModuleSyntax}

theorem parse_between (h : tokenize file source = .ok tokens) (hm : parse file tokens = .ok m) :
    ∃ lo hi, Extent.Between tokens lo hi (m.items.map Item.extent) := by
  obtain ⟨d, reads, -⟩ := parse_reads hm
  exact ⟨_, _, (reads (laid_of_tokenize h)).between⟩

/-- All parts of a program start where tokens do, and every variable has a type or an initial
value. -/
theorem parse_placed (h : tokenize file source = .ok tokens) (hm : parse file tokens = .ok m)
    {L : Leeway} (hL : ∀ p, Begins tokens p → L p) : ∀ i ∈ m.items, i.extent.Placed L := by
  obtain ⟨lo, hi, between⟩ := parse_between h hm
  exact fun i hi => (between.mem _ (List.mem_map_of_mem hi)).1.placed hL

/-- What can be wrong with a text before anything is known of its types. -/
def Cause.IsTextual : Cause → Prop
  | .unrecognisedToken _ | .unterminatedString | .unterminatedComment | .ambiguousOperator _
  | .invalidEscapeSequence _ | .unexpectedToken _ | .unexpectedTokenDetailed _ _
  | .unexpectedEof => True
  | _ => False

/-- A program that cannot be read is refused at the start of a token. -/
theorem parse_error_placed (h : tokenize file source = .ok tokens) {f : Failure}
    (hf : parse file tokens = .error f) :
    ∃ e, f = .error e ∧ e.cause.IsTextual ∧ Begins tokens e.position := by
  have stream := isStream_of_tokenize h
  obtain ⟨d, cause, hd, refuses, rfl, -⟩ := stream.leftover_of_error hf
  obtain ⟨body, last, rfl, hl, hb⟩ := stream
  obtain ⟨read, t, rest, same, -, -, place, -⟩ := hd.exists_token hl hb
  refine ⟨_, rfl, ?_, t, by simp [same], place.symm⟩
  show Cause.IsTextual (if _ then _ else _)
  split
  · trivial
  · rcases refuses with rfl | ⟨message, rfl⟩ <;> trivial

/-- **Spans nest.**  Every part of a tree that was read from a text has a span that is not empty,
starts where a token does and ends where one does, and contains the spans of all that is in it; and
parts side by side do not overlap and are in the order of the text. -/
theorem parse_nested (h : tokenize file source = .ok tokens) (hm : parse file tokens = .ok m) :
    (m.items.map Item.extent).Pairwise (fun a b => a.span.stop ≤ b.span.start) ∧
      ∀ i ∈ m.items, ∀ e : Extent, e.Within i.extent → e.span.start < e.span.stop ∧
        Begins tokens e.span.start ∧ Finishes tokens e.span.stop ∧
        (∀ d : Extent, d.Within e → e.span.start ≤ d.span.start ∧ d.span.stop ≤ e.span.stop) ∧
        e.parts.Pairwise fun a b => a.span.stop ≤ b.span.start := by
  obtain ⟨lo, hi, between⟩ := parse_between h hm
  refine ⟨between.pairwise, fun i hi e he => ?_⟩
  have covers := (Extent.Covers.within he (between.mem _ (List.mem_map_of_mem hi)).1).1
  exact ⟨covers.filled, covers.begins, covers.finishes,
    fun d hd => (Extent.Covers.within hd covers).2, covers.between.pairwise⟩

/-- An `else if`, whose block has the span of the conditional in it, and a sum whose span is without
the parenthesis behind its last operand. -/
theorem parse_nested_alternatives :
    let source := "struct S\x7bp: *U8\x7d def f() \x7bif a \x7b\x7d else if b \x7b1 + (2)\x7d\x7d"
    ∃ tokens m, tokenize "m.g" source = .ok tokens ∧ parse "m.g" tokens = .ok m ∧
      m.items.map (·.extent.span) = [.inFile "m.g" 0 16, .inFile "m.g" 17 54] ∧
      ∀ i ∈ m.items, ∀ e : Extent, e.Within i.extent → e.span.start < e.span.stop ∧
        ∀ d : Extent, d.Within e → e.span.start ≤ d.span.start ∧ d.span.stop ≤ e.span.stop := by
  intro source
  have run : ((rounds "m.g" 60 [] 0 source.toList).bind fun r => r.toOption.bind fun tokens =>
      (parse "m.g" tokens).toOption.map fun m => m.items.map (·.extent.span)) =
        some [.inFile "m.g" 0 16, .inFile "m.g" 17 54] := by
    decide +kernel
  rw [rounds_eq_some (by decide), Option.bind_some] at run
  cases read : tokensFrom "m.g" 0 source.toList with
  | error e =>
    rw [read] at run
    cases run
  | ok tokens =>
    rw [read] at run
    obtain ⟨m, parsed, spans⟩ := eq_ok_of_map run
    refine ⟨tokens, m, read, parsed, spans, fun i hi e he => ?_⟩
    obtain ⟨filled, -, -, contains, -⟩ := (parse_nested read parsed).2 i hi e he
    exact ⟨filled, contains⟩

end Gauge
