import Gauge.Proofs.Syntax.Render

/-!
# Proofs — reading undoes writing

The tokens of a well-formed tree are read as that tree, wherever they stand.  `Parse.Reads` says
what a reader takes from the tokens ahead and what it gives; its rules follow the ways in which
readers are put together.

An infix form is not read as one piece: what comes before it is read first, and goes on being
extended as long as the operators that follow bind tightly enough.  So the induction is on
`Expr.Opens`, which says that a reader that finds the tokens of an expression gets to the point
where it holds that expression and looks at what follows, with nearly all of its depth left.

Main statement: `ModuleSyntax.parse_render`.
-/

namespace Gauge

variable {rest : List Lexeme}

/-! ### Readers -/

/-- The tokens ahead. -/
def Cursor.lexemes (c : Cursor) : List Lexeme := c.ahead.map Token.lexeme

/-- The kind of the next token. -/
def headKind (ts : List Lexeme) : TokenKind := (ts.head?.map (·.kind)).getD .eof

namespace Cursor

variable {c : Cursor} {l : Lexeme} {rest : List Lexeme}

theorem kind_eq : c.kind = headKind c.lexemes := by
  unfold Cursor.kind current headKind lexemes
  cases c.ahead with
  | nil | cons t ts => rfl

theorem current_of_cons (h : c.lexemes = l :: rest) :
    c.current.lexeme = l ∧ c.next.lexemes = rest := by
  unfold lexemes at h
  unfold current next lexemes
  cases ha : c.ahead with
  | nil =>
    rw [ha] at h
    cases h
  | cons t ts =>
    rw [ha] at h
    cases h
    exact ⟨rfl, rfl⟩

end Cursor

namespace Parse

variable {α β : Type} {x : Parse α} {f : α → Parse β} {ts us rest : List Lexeme} {l : Lexeme}
  {k : TokenKind} {P : α → Prop} {Q : β → Prop}

/-- From a place where the tokens `ts` and then `rest` are ahead, the reader takes `ts` and gives
something as `P` says. -/
def Reads (x : Parse α) (ts rest : List Lexeme) (P : α → Prop) : Prop :=
  ∀ c : Cursor, c.lexemes = ts ++ rest → ∃ a c', x c = .ok (a, c') ∧ c'.lexemes = rest ∧ P a

namespace Reads

theorem pure {a : α} (h : P a) : (Pure.pure a : Parse α).Reads [] rest P :=
  fun c hc => ⟨a, c, rfl, hc, h⟩

theorem mono {R : α → Prop} (h : x.Reads ts rest P) (hR : ∀ a, P a → R a) : x.Reads ts rest R := by
  intro c hc
  obtain ⟨a, c', hx, hr, ha⟩ := h c hc
  exact ⟨a, c', hx, hr, hR a ha⟩

/-- One reader and then another. -/
theorem bind (hx : x.Reads ts (us ++ rest) P) (hf : ∀ a, P a → (f a).Reads us rest Q) :
    (x >>= f).Reads (ts ++ us) rest Q := by
  intro c hc
  rw [List.append_assoc] at hc
  obtain ⟨a, c', hx, hr, ha⟩ := hx c hc
  obtain ⟨b, c'', hf, hr', hb⟩ := hf a ha c' hr
  refine ⟨b, c'', ?_, hr', hb⟩
  show (x c >>= fun p => f p.1 p.2) = _
  rw [hx]
  exact hf

/-- A reader that takes nothing, and then another. -/
theorem peek (hx : x.Reads [] (us ++ rest) P) (hf : ∀ a, P a → (f a).Reads us rest Q) :
    (x >>= f).Reads us rest Q := bind hx hf

/-- A reader, and then another that takes nothing. -/
theorem last (hx : x.Reads ts rest P) (hf : ∀ a, P a → (f a).Reads [] rest Q) :
    (x >>= f).Reads ts rest Q := by
  rw [← List.append_nil ts]
  exact bind hx hf

/-- A reader of one token, and then another. -/
theorem token (hx : x.Reads [l] (us ++ rest) P) (hf : ∀ a, P a → (f a).Reads us rest Q) :
    (x >>= f).Reads (l :: us) rest Q := bind hx hf

theorem current : Parse.current.Reads [] (l :: rest) fun t => t.lexeme = l :=
  fun c hc => ⟨c.current, c, rfl, hc, (Cursor.current_of_cons hc).1⟩

theorem kind : Parse.kind.Reads [] rest fun k => k = headKind rest :=
  fun c hc => ⟨c.kind, c, rfl, hc, by rw [Cursor.kind_eq, hc]; rfl⟩

theorem advance : Parse.advance.Reads [l] rest fun t => t.lexeme = l :=
  fun c hc => ⟨c.current, c.next, rfl, (Cursor.current_of_cons hc).2, (Cursor.current_of_cons hc).1⟩

/-- A token of the kind that is asked for is taken. -/
theorem expectOr {cause : Cursor → Cause} (h : l.kind = k) :
    Reads (fun c => Failure.ofError (c.expectOr k (cause c))) [l] rest fun t => t.lexeme = l := by
  intro c hc
  obtain ⟨hl, hr⟩ := Cursor.current_of_cons hc
  refine ⟨c.current, c.next, congrArg Failure.ofError (if_pos ?_), hr, hl⟩
  rw [← h, ← hl]
  rfl

theorem expect (h : l.kind = k) : (Parse.expect k).Reads [l] rest fun t => t.lexeme = l :=
  expectOr h

theorem expectFor {message : String} (h : l.kind = k) :
    (Parse.expectFor k message).Reads [l] rest fun t => t.lexeme = l := expectOr h

theorem accept (h : l.kind = k) : (Parse.accept k).Reads [l] rest fun b => b = true := by
  intro c hc
  obtain ⟨hl, hr⟩ := Cursor.current_of_cons hc
  refine ⟨true, c.next, congrArg _ (if_pos ?_), hr, rfl⟩
  rw [← h, ← hl]
  rfl

theorem accept_other (h : headKind rest ≠ k) : (Parse.accept k).Reads [] rest fun b =>
    b = false := by
  intro c hc
  refine ⟨false, c, congrArg _ (if_neg ?_), hc, rfl⟩
  rw [Cursor.kind_eq, hc]
  exact h

theorem spanFrom {start : Position} : (Parse.spanFrom start).Reads [] rest fun _ => True :=
  fun c hc => ⟨c.spanFrom start, c, rfl, hc, trivial⟩

/-- A reader of one token that goes on with what the token is. -/
theorem word {g : Token → Parse β} {y : Parse Token} {v : String}
    (hy : y.Reads [⟨k, v⟩] (us ++ rest) fun t => t.lexeme = ⟨k, v⟩)
    (hg : ∀ s, (g ⟨k, v, s⟩).Reads us rest Q) : (y >>= g).Reads (⟨k, v⟩ :: us) rest Q := by
  refine token hy ?_
  rintro ⟨_, _, s⟩ ⟨⟩
  exact hg s

/-- The token ahead is looked at. -/
theorem seen {g : Token → Parse β} {v : String}
    (hg : ∀ s, (g ⟨k, v, s⟩).Reads (⟨k, v⟩ :: us) rest Q) :
    (Parse.current >>= g).Reads (⟨k, v⟩ :: us) rest Q := by
  refine peek current ?_
  rintro ⟨_, _, s⟩ ⟨⟩
  exact hg s

/-- The kind of the token ahead is looked at. -/
theorem seenKind {g : TokenKind → Parse β} (hg : (g (headKind (us ++ rest))).Reads us rest Q) :
    (Parse.kind >>= g).Reads us rest Q := by
  refine peek kind ?_
  rintro _ rfl
  exact hg

theorem accepted {g : Bool → Parse β} (h : l.kind = k) (hg : (g true).Reads us rest Q) :
    (Parse.accept k >>= g).Reads (l :: us) rest Q := by
  refine token (accept h) ?_
  rintro _ rfl
  exact hg

theorem declined {g : Bool → Parse β} (h : headKind (us ++ rest) ≠ k)
    (hg : (g false).Reads us rest Q) : (Parse.accept k >>= g).Reads us rest Q := by
  refine peek (accept_other h) ?_
  rintro _ rfl
  exact hg

end Reads

end Parse

/-! ### Types -/

/-- By induction on the type. -/
theorem TypeExpr.reads : ∀ (t : TypeExpr) {n : Nat} {rest : List Lexeme}, t.WellFormed →
    t.render.length ≤ n → (Parse.type n).Reads t.render rest fun t' => t'.erase = t.erase
  | .named _ name, n + 1, rest, h, _ => by
    rw [Parse.type, TypeExpr.render, Lexeme.word_of_isName h]
    refine .seen fun s => ?_
    exact .token .advance fun _ _ => .pure rfl
  | .pointer _ t, n + 1, rest, h, hn | .mutable _ t, n + 1, rest, h, hn => by
    rw [Parse.type, TypeExpr.render]
    refine .seen fun s => ?_
    refine .token .advance fun _ _ => ?_
    refine .last (TypeExpr.reads t h (Nat.le_of_succ_le_succ hn)) fun t' ht => ?_
    refine .peek .spanFrom fun _ _ => .pure ?_
    rw [TypeExpr.erase, TypeExpr.erase, ht]

/-! ### Operands and operators -/

/-- The tokens do not go on with an operator that binds tighter than `p`, nor with an `else`. -/
structure Stops (p : Power) (ts : List Lexeme) : Prop where
  operator : ∀ form, InfixForm.ofKind? (headKind ts) = some form → form.power.rank ≤ p.rank
  otherwise : headKind ts ≠ .kwElse

theorem Stops.mono {p q : Power} {ts : List Lexeme} (h : Stops q ts) (hq : q.rank ≤ p.rank) :
    Stops p ts := ⟨fun form hf => Nat.le_trans (h.operator form hf) hq, h.otherwise⟩

/-- Tokens that start with no operator at all. -/
theorem Stops.of_none {p : Power} {ts : List Lexeme} (h : InfixForm.ofKind? (headKind ts) = none)
    (he : headKind ts ≠ .kwElse) : Stops p ts := by
  refine ⟨fun form hf => ?_, he⟩
  rw [h] at hf
  cases hf

theorem InfixForm.power_rank_le (f : InfixForm) : f.power.rank ≤ Power.call.rank := by
  cases f with
  | assign | cast | call => decide
  | logical op | binary op => cases op <;> decide

theorem InfixForm.assignment_le (f : InfixForm) : Power.assignment.rank ≤ f.power.rank := by
  cases f with
  | assign | cast | call => decide
  | logical op | binary op => cases op <;> decide

namespace Expr

variable {e : Expr} {q : Power} {n : Nat} {form : InfixForm} {k : Nat}

/-- The power with which the last part of an expression is read. -/
def trailing : Expr → Power
  | .assign _ _ _ => .comma
  | .logical _ op _ _ => (InfixForm.logical op).power
  | .binary _ op _ _ => (InfixForm.binary op).power
  | .prefixed _ _ _ => .unary
  | _ => .call

/-- The expression can be read where operators have to bind tighter than `q`. -/
def Stands (q : Power) : Expr → Prop
  | .prefixed _ _ _ => q.rank ≤ Power.unary.rank
  | e => q.rank < e.rank

theorem assignment_le_rank (e : Expr) : Power.assignment.rank ≤ e.rank := by
  cases e with
  | binary _ op _ _ => exact InfixForm.assignment_le (.binary op)
  | logical _ op _ _ => exact InfixForm.assignment_le (.logical op)
  | _ => exact Nat.le_of_ble_eq_true rfl

theorem stands_of_lt (h : q.rank < e.rank) : e.Stands q := by
  cases e with
  | prefixed _ _ _ => exact Nat.le_of_lt h
  | _ => exact h

theorem stands_default (e : Expr) : e.Stands .default :=
  stands_of_lt (Nat.lt_of_lt_of_le (by decide) e.assignment_le_rank)

theorem stands_comma (e : Expr) : e.Stands .comma :=
  stands_of_lt (Nat.lt_of_lt_of_le (by decide) e.assignment_le_rank)

/-- What follows an expression in its place does not extend its last part. -/
theorem Stands.le_trailing (h : e.Stands q) : q.rank ≤ e.trailing.rank := by
  cases e with
  | assign _ _ _ => exact Nat.le_of_lt_succ h
  | logical _ _ _ _ | binary _ _ _ _ => exact Nat.le_of_lt h
  | prefixed _ _ _ => exact h
  | cast _ _ _ => exact Nat.le_trans (Nat.le_of_lt h) (Nat.le_of_ble_eq_true rfl)
  | call _ _ _ => exact Nat.le_of_lt h
  | literal _ _ | identifier _ _ | conditional _ _ _ _ | block _ => exact Nat.le_of_lt_succ h

/-- What follows a left operand does not extend its last part. -/
theorem stops_trailing {ts : List Lexeme} (hk : k ≤ e.rank) (ha : Power.assignment.rank < k)
    (hf : form.power.rank ≤ k) : Stops e.trailing (.mark form.kind :: ts) := by
  have hr : form.power.rank ≤ e.trailing.rank := by
    have hle := Nat.le_trans hf hk
    cases e with
    | assign _ _ _ => exact absurd hk (Nat.not_le.mpr ha)
    | logical _ _ _ _ | binary _ _ _ _ | prefixed _ _ _ => exact hle
    | _ => exact form.power_rank_le
  refine ⟨fun form' hf' => ?_, fun he => ?_⟩
  · cases (InfixForm.ofKind?_kind form).symm.trans hf'
    exact hr
  · have := InfixForm.ofKind?_kind form
    rw [show form.kind = .kwElse from he] at this
    cases this

/-- Where the tokens of the expression are ahead, the reader gets to hold the expression and to look
at what follows, `us` and then `rest`. -/
structure Opens (e : Expr) : Prop where
  reads : ∀ {n : Nat} {q : Power} {us rest : List Lexeme} {Q : Expr → Prop}, e.Stands q →
    Stops e.trailing (us ++ rest) → 8 * e.render.length ≤ n →
    (∀ e' m, e'.erase = e.erase → n ≤ m + e.render.length →
      (Parse.infixForms m q e').Reads us rest Q) →
    (Parse.prefixForm n >>= Parse.infixForms n q).Reads (e.render ++ us) rest Q

/-- Nothing is to be extended. -/
theorem reads_infixForms_nil (h : Stops q rest)
    (hn : 0 < n) : (Parse.infixForms n q e).Reads [] rest fun e' => e' = e := by
  obtain ⟨n, rfl⟩ := Nat.exists_eq_succ_of_ne_zero (Nat.ne_of_gt hn)
  rw [Parse.infixForms_succ]
  refine .seenKind ?_
  rw [List.nil_append]
  cases hf : InfixForm.ofKind? (headKind rest) with
  | none => exact .pure rfl
  | some form =>
    have := h.operator form hf
    dsimp only
    rw [if_neg (by simpa [Power.tighter] using this)]
    exact .pure rfl

/-- One infix form is read, and then what follows. -/
theorem reads_infixForms_cons {left : Expr}
    {ts us rest : List Lexeme} {P Q : Expr → Prop} (hq : q.rank < form.power.rank)
    (hf : (Parse.infixForm n form form.power left).Reads ts (us ++ rest) P)
    (hr : ∀ e, P e → (Parse.infixForms n q e).Reads us rest Q) :
    (Parse.infixForms (n + 1) q left).Reads (.mark form.kind :: (ts ++ us)) rest Q := by
  rw [Parse.infixForms_succ]
  refine .seenKind ?_
  rw [show headKind (.mark form.kind :: (ts ++ us) ++ rest) = form.kind from rfl,
    InfixForm.ofKind?_kind]
  show (if form.power.tighter q then _ else _ : Parse Expr).Reads _ rest _
  rw [if_pos (by simpa [Power.tighter] using hq)]
  exact .token .advance fun _ _ => .bind hf hr

/-- An expression that is read as one piece. -/
theorem opens_of_prefixForm
    (h : ∀ {n : Nat} {rest : List Lexeme}, Stops e.trailing rest → 8 * e.render.length ≤ n →
      (Parse.prefixForm n).Reads e.render rest fun e' => e'.erase = e.erase) : e.Opens := by
  refine ⟨fun {n q us rest Q} _ hs hn hk => ?_⟩
  exact .bind (h hs hn) fun e' he => hk e' n he (Nat.le_add_right n _)

/-- An expression has a token. -/
theorem render_pos (e : Expr) : 0 < e.render.length := by
  cases e with
  | literal _ _ | identifier _ _ => exact Nat.one_pos
  | conditional _ c t e =>
    cases e with
    | none | some e => exact Nat.succ_pos _
  | block b =>
    obtain ⟨_, ss⟩ := b
    exact Nat.succ_pos _
  | prefixed _ _ _ => exact Nat.succ_pos _
  | binary _ _ _ _ | logical _ _ _ _ | assign _ _ _ | call _ _ _ | cast _ _ _ =>
    rw [render, List.length_append, List.length_cons]
    exact Nat.succ_pos _

/-- The reader of expressions takes the tokens of one that can stand in its place. -/
theorem Opens.reads_expr (h : e.Opens)
    (hq : e.Stands q) (hs : Stops q rest) (hn : 8 * e.render.length < n) :
    (Parse.expr n q).Reads e.render rest fun e' => e'.erase = e.erase := by
  obtain _ | m := n
  · omega
  rw [Parse.expr, ← List.append_nil e.render]
  refine h.reads hq (hs.mono hq.le_trailing) (by omega) fun e' k he hk => ?_
  have pos := e.render_pos
  refine (reads_infixForms_nil hs (by omega)).mono ?_
  rintro _ rfl
  exact he

/-- An expression between parentheses. -/
theorem Opens.reads_parenthesised (h : e.Opens) (hn : 8 * e.render.length + 1 < n) :
    (Parse.prefixForm n).Reads (.mark .openParen :: (e.render ++ [.mark .closeParen])) rest
      fun e' =>
      e'.erase = e.erase := by
  obtain _ | m := n
  · omega
  rw [Parse.prefixForm_succ]
  refine .seen fun s => ?_
  refine .token .advance fun _ _ => ?_
  refine .bind (h.reads_expr e.stands_default (.of_none rfl nofun) (by omega)) fun e' he => ?_
  exact .token (.expect rfl) fun _ _ => .pure he

/-- The reader of expressions takes the tokens of an operand, between parentheses if need be. -/
theorem Opens.reads_at (h : e.Opens) {n : Nat} (hq : k ≤ e.rank → e.Stands q) (hs : Stops q rest)
    (hn : 8 * (e.renderAt k).length < n) :
    (Parse.expr n q).Reads (e.renderAt k) rest fun e' => e'.erase = e.erase := by
  unfold renderAt bracket at hn ⊢
  by_cases hk : e.rank < k
  · rw [if_pos (decide_eq_true hk)] at hn ⊢
    simp only [List.length_cons, List.length_append, List.length_nil] at hn
    obtain _ | m := n
    · omega
    rw [Parse.expr]
    refine .last (h.reads_parenthesised (by omega)) fun e' he => ?_
    refine (reads_infixForms_nil hs (by omega)).mono ?_
    rintro _ rfl
    exact he
  · rw [if_neg (by simpa using hk)] at hn ⊢
    exact h.reads_expr (hq (Nat.not_lt.mp hk)) hs hn

/-- A left operand, between parentheses if need be. -/
theorem Opens.at (h : e.Opens) {n : Nat} {us rest : List Lexeme} {Q : Expr → Prop}
    (hq : k ≤ e.rank → e.Stands q ∧ Stops e.trailing (us ++ rest))
    (hn : 8 * (e.renderAt k).length ≤ n)
    (hk : ∀ e' m, e'.erase = e.erase → n ≤ m + (e.renderAt k).length →
      (Parse.infixForms m q e').Reads us rest Q) :
    (Parse.prefixForm n >>= Parse.infixForms n q).Reads (e.renderAt k ++ us) rest Q := by
  unfold renderAt bracket at hn hk ⊢
  by_cases hr : e.rank < k
  · rw [if_pos (decide_eq_true hr)] at hn hk ⊢
    simp only [List.length_cons, List.length_append, List.length_nil] at hn
    exact .bind (h.reads_parenthesised (by omega)) fun e' he => hk e' n he (Nat.le_add_right n _)
  · rw [if_neg (by simpa using hr)] at hn hk ⊢
    obtain ⟨hst, hs⟩ := hq (Nat.not_lt.mp hr)
    exact h.reads hst hs hn hk

/-- An infix form whose left operand can be read: it is enough that the rest of the form is read
behind its operator. -/
theorem Opens.extend {e l : Expr} {tail : List Lexeme} (hl : l.Opens)
    (layout : e.render = l.renderAt k ++ .mark form.kind :: tail) (hf : form.power.rank ≤ k)
    (ha : Power.assignment.rank < k) (hq : ∀ q, e.Stands q → q.rank < form.power.rank)
    (read : ∀ {l' : Expr} {n : Nat} {rest : List Lexeme}, l'.erase = l.erase →
      Stops e.trailing rest → 8 * tail.length + 4 ≤ n →
      (Parse.infixForm n form form.power l').Reads tail rest fun e' => e'.erase = e.erase) :
      e.Opens := by
  refine ⟨fun {n q us rest Q} hst hs hn hk => ?_⟩
  rw [layout] at hn hk ⊢
  rw [List.append_assoc]
  simp only [List.length_append, List.length_cons] at hn hk
  refine hl.at (fun hle => ⟨?_, stops_trailing hle ha hf⟩) (by omega) fun l' m he hm => ?_
  · exact stands_of_lt (Nat.lt_of_lt_of_le (hq q hst) (Nat.le_trans hf hle))
  · obtain _ | m := m
    · omega
    exact reads_infixForms_cons (hq q hst) (read he hs (by omega)) fun e' he' =>
      hk e' m he' (by omega)

/-- What is an operand of a prefix operator without parentheses can stand there. -/
theorem stands_unary (h : Power.unary.rank ≤ e.rank) : e.Stands .unary := by
  cases e with
  | prefixed _ _ _ => exact h
  | binary _ op _ _ =>
    refine absurd h (Nat.not_le.mpr ?_)
    show (InfixForm.binary op).power.rank < _
    cases op <;> decide
  | logical _ op _ _ =>
    refine absurd h (Nat.not_le.mpr ?_)
    show (InfixForm.logical op).power.rank < _
    cases op <;> decide
  | assign _ _ _ | cast _ _ _ => exact absurd h (Nat.not_le.mpr (Nat.le_of_ble_eq_true rfl))
  | call _ _ _ | literal _ _ | identifier _ _ | conditional _ _ _ _ | block _ =>
    exact Nat.le_of_ble_eq_true rfl

end Expr

/-! ### How trees start -/

/-- The kinds of token that an expression can start with. -/
def exprStarts : List TokenKind :=
  [.number, .kwTrue, .kwFalse, .kwNull, .identifier, .dash, .not, .ampersand, .star, .openParen,
   .openCurly, .kwIf]

/-- The kinds of token that a statement can start with. -/
def stmtStarts : List TokenKind := .kwDef :: .kwReturn :: .kwWhile :: exprStarts

/-- The tokens start with one of the given kinds. -/
def StartsIn (kinds : List TokenKind) (ts : List Lexeme) : Prop :=
  ∃ l us, ts = l :: us ∧ l.kind ∈ kinds

namespace StartsIn

variable {kinds : List TokenKind} {ts us : List Lexeme}

theorem append (h : StartsIn kinds ts) : StartsIn kinds (ts ++ us) := by
  obtain ⟨l, rest, rfl, hl⟩ := h
  exact ⟨l, rest ++ us, rfl, hl⟩

theorem mono {kinds' : List TokenKind} (h : StartsIn kinds ts) (hk : ∀ k ∈ kinds, k ∈ kinds') :
    StartsIn kinds' ts := by
  obtain ⟨l, rest, rfl, hl⟩ := h
  exact ⟨l, rest, rfl, hk _ hl⟩

theorem ne {k : TokenKind} (h : StartsIn kinds ts) (hk : k ∉ kinds) : headKind ts ≠ k := by
  obtain ⟨l, rest, rfl, hl⟩ := h
  rintro rfl
  exact hk hl

theorem bracket {needed : Bool} (h : StartsIn exprStarts ts) :
    StartsIn exprStarts (bracket needed ts) := by
  cases needed with
  | true => exact ⟨_, _, rfl, by decide⟩
  | false => exact h

end StartsIn

/-- An expression starts with its leftmost part. -/
theorem Expr.render_starts : ∀ e : Expr, e.WellFormed → StartsIn exprStarts e.render
  | .literal _ (.number _), _ | .literal _ (.bool true), _ | .literal _ (.bool false), _
  | .literal _ .null, _ => ⟨_, _, rfl, by simp [Literal.lexeme, Lexeme.mark, exprStarts]⟩
  | .identifier _ name, h => ⟨_, _, rfl, by simp [Lexeme.word_of_isName h, exprStarts]⟩
  | .prefixed _ op _, _ => by
    refine ⟨_, _, rfl, ?_⟩
    cases op <;> decide
  | .binary _ _ l _, h | .logical _ _ l _, h | .assign _ l _, h | .call _ l _, h | .cast _ l _, h =>
    (Expr.render_starts l h.1).bracket.append
  | .conditional _ _ _ none, _ | .conditional _ _ _ (some _), _ | .block (.mk _ _), _ =>
    ⟨_, _, rfl, by simp [Lexeme.mark, exprStarts]⟩

/-- A statement starts with its keyword or with its expression. -/
theorem Stmt.render_starts (s : Stmt) (h : s.WellFormed) : StartsIn stmtStarts s.render := by
  cases s with
  | expr _ e =>
    have starts : StartsIn stmtStarts e.render := (e.render_starts h).mono (by decide)
    rw [Stmt.render]
    split
    · exact starts
    · exact ((e.render_starts h).bracket.mono (by decide)).append
  | define _ _ type init => cases type <;> cases init <;> exact ⟨_, _, rfl, by decide⟩
  | ret _ value => cases value <;> exact ⟨_, _, rfl, by decide⟩
  | loop _ _ _ => exact ⟨_, _, rfl, by decide⟩

/-! ### Blocks and conditionals -/

/-- The reader of blocks takes the tokens of the block. -/
structure Block.Opens (b : Block) : Prop where
  reads : ∀ {n : Nat} {rest : List Lexeme}, 8 * b.render.length ≤ n + 14 →
    (Parse.block n).Reads b.render rest fun b' => b'.erase = b.erase

theorem Block.render_length (b : Block) : 2 ≤ b.render.length := by
  obtain ⟨_, ss⟩ := b
  rw [Block.render, List.length_cons, List.length_append]
  exact Nat.succ_le_succ (Nat.le_add_left 1 _)

/-- A block does not extend the expression before it. -/
theorem Block.stops {b : Block} {p : Power} : Stops p (b.render ++ rest) := by
  obtain ⟨_, ss⟩ := b
  exact .of_none rfl nofun

namespace Expr

variable {n : Nat} {rest : List Lexeme}

/-- A block is read as an expression. -/
theorem reads_block {b : Block} (h : b.Opens) (hn : 8 * b.render.length ≤ n + 11) :
    (Parse.prefixForm n).Reads (Expr.block b).render rest fun e' =>
      e'.erase = (Expr.block b).erase := by
  have pos := b.render_length
  obtain _ | m := n
  · omega
  obtain ⟨s, ss⟩ := b
  rw [Parse.prefixForm_succ, Expr.render]
  refine .seen fun s => ?_
  refine .last (h.reads (by omega)) fun b' hb => .pure ?_
  rw [Expr.erase, Expr.erase, hb]

/-- A conditional without a second arm, where no `else` follows. -/
theorem reads_conditional_none {s : Span} {c : Expr} {t : Block} (hc : c.Opens) (ht : t.Opens)
    (hr : headKind rest ≠ .kwElse)
    (hn : 8 * (Expr.conditional s c t none).render.length ≤ n + 11) :
    (Parse.prefixForm n).Reads (Expr.conditional s c t none).render rest fun e' =>
      e'.erase = (Expr.conditional s c t none).erase := by
  have pos := t.render_length
  rw [Expr.render] at hn ⊢
  simp only [List.length_append, List.length_cons] at hn
  obtain _ | _ | m := n
  · omega
  · omega
  rw [Parse.prefixForm_succ]
  refine .seen fun s => ?_
  dsimp only
  rw [Parse.conditional]
  refine .token .advance fun _ _ => ?_
  refine .bind (hc.reads_expr c.stands_default Block.stops (by omega)) fun c' hc' => ?_
  refine .last (ht.reads (by omega)) fun t' ht' => ?_
  refine .declined hr ?_
  refine .peek .spanFrom fun _ _ => .pure ?_
  rw [Expr.erase, Expr.erase, hc', ht']

/-- A conditional with two arms. -/
theorem reads_conditional_some {s : Span} {c : Expr} {t e : Block} (hc : c.Opens) (ht : t.Opens)
    (he : e.Opens) (hn : 8 * (Expr.conditional s c t (some e)).render.length ≤ n + 11) :
    (Parse.prefixForm n).Reads (Expr.conditional s c t (some e)).render rest fun e' =>
      e'.erase = (Expr.conditional s c t (some e)).erase := by
  have pos := t.render_length
  have pos' := e.render_length
  rw [Expr.render] at hn ⊢
  simp only [List.length_append, List.length_cons] at hn
  obtain _ | _ | m := n
  · omega
  · omega
  rw [Parse.prefixForm_succ]
  refine .seen fun s => ?_
  dsimp only
  rw [Parse.conditional]
  refine .token .advance fun _ _ => ?_
  refine .bind (hc.reads_expr c.stands_default ?_ (by omega)) fun c' hc' => ?_
  · rw [List.append_assoc]
    exact Block.stops
  refine .bind (ht.reads (by omega)) fun t' ht' => ?_
  refine .accepted rfl ?_
  refine .seenKind ?_
  have hk : headKind (e.render ++ rest) ≠ .kwIf := by
    obtain ⟨_, ss⟩ := e
    exact nofun
  rw [if_neg hk]
  refine .last (he.reads (by omega)) fun e' he' => ?_
  refine .peek .spanFrom fun _ _ => .pure ?_
  rw [Expr.erase, Expr.erase, hc', ht', he']

end Expr

/-! ### Statements -/

namespace Stmt

variable {n : Nat} {rest : List Lexeme} {e : Expr} {s : Span}

/-- A statement that starts like a block ends with it. -/
theorem reads_blockLike (hs : startsBlock e.render = true)
    (he : (Parse.prefixForm n).Reads e.render rest fun e' => e'.erase = e.erase)
    (hr : headKind rest ≠ .semicolon) :
    (Parse.stmt (n + 1)).Reads e.render rest fun s' => s'.erase = (Stmt.expr s e).erase := by
  cases hts : e.render with
  | nil =>
    rw [hts] at hs
    cases hs
  | cons l us =>
    rw [hts] at hs he
    rw [Parse.stmt]
    refine .peek .current ?_
    rintro ⟨k, v, sp⟩ rfl
    have finish : ∀ start, (do
        let value ← Parse.prefixForm n
        let _ ← Parse.accept .semicolon
        return .expr (← Parse.spanFrom start) value : Parse Stmt).Reads
          (Token.lexeme ⟨k, v, sp⟩ :: us) rest fun s' => s'.erase = (Stmt.expr s e).erase := by
      intro start
      refine .last he fun e' he' => ?_
      refine .peek (.accept_other hr) fun _ _ => .peek .spanFrom fun _ _ => .pure ?_
      rw [Stmt.erase, Stmt.erase, he']
    cases k with
    | openCurly | kwIf => exact finish _
    | _ => cases hs

/-- Any other statement that is an expression ends with a semicolon. -/
theorem reads_expr {ts : List Lexeme} (hs : StartsIn exprStarts ts) (hb : startsBlock ts = false)
    (he : (Parse.expr n .default).Reads ts (.mark .semicolon :: rest) fun e' =>
      e'.erase = e.erase) :
    (Parse.stmt (n + 1)).Reads (ts ++ [.mark .semicolon]) rest fun s' =>
      s'.erase = (Stmt.expr s e).erase := by
  obtain ⟨l, us, rfl, hl⟩ := hs
  rw [Parse.stmt]
  refine .peek .current ?_
  rintro ⟨k, v, sp⟩ rfl
  have finish : ∀ start, (do
      let value ← Parse.expr n .default
      if (← Parse.kind) = .closeCurly then return .expr (← Parse.spanFrom start) value
      else
        let _ ← Parse.expect .semicolon
        return .expr (← Parse.spanFrom start) value : Parse Stmt).Reads
          (Token.lexeme ⟨k, v, sp⟩ :: us ++ [.mark .semicolon]) rest fun s' =>
            s'.erase = (Stmt.expr s e).erase := by
    intro start
    refine .bind he fun e' he' => .seenKind ?_
    refine .token (.expect rfl) fun _ _ => .peek .spanFrom fun _ _ => .pure ?_
    rw [Stmt.erase, Stmt.erase, he']
  have hl : k ∈ exprStarts := hl
  cases k with
  | number | kwTrue | kwFalse | kwNull | identifier | dash | not | ampersand | star | openParen =>
    exact finish _
  | openCurly | kwIf => cases hb
  | _ => exact absurd hl (by decide)

/-- A statement that is an expression which is neither a block nor a conditional. -/
theorem reads_bracketed (h : e.Opens) (hs : StartsIn exprStarts e.render)
    (hn : 8 * (bracket (startsBlock e.render) e.render).length < n) :
    (Parse.stmt (n + 1)).Reads (bracket (startsBlock e.render) e.render ++ [.mark .semicolon]) rest
      fun s' => s'.erase = (Stmt.expr s e).erase := by
  refine reads_expr hs.bracket ?_ ?_
  · cases hb : startsBlock e.render with
    | true => rfl
    | false => exact hb
  · have stops : Stops .default (.mark .semicolon :: rest) := .of_none rfl nofun
    cases hb : startsBlock e.render with
    | true =>
      rw [hb] at hn
      -- Parentheses around the statement are like those around an operand.
      have all : e.renderAt (e.rank + 1) = bracket true e.render :=
        congrArg (bracket · e.render) (decide_eq_true (Nat.lt_succ_self _))
      rw [← all] at hn ⊢
      exact h.reads_at (fun hle => absurd hle (Nat.not_succ_le_self _)) stops hn
    | false =>
      rw [hb] at hn
      exact h.reads_expr e.stands_default stops hn

end Stmt

/-! ### Trees -/

mutual

/-- By induction on the tree. -/
theorem Expr.opens : ∀ e : Expr, e.WellFormed → e.Opens
  | .literal _ l, _ => by
    refine Expr.opens_of_prefixForm fun {n rest} _ hn => ?_
    obtain _ | m := n
    · cases hn
    rw [Parse.prefixForm_succ, Expr.render]
    refine .peek .current ?_
    rintro ⟨_, _, s⟩ ht
    cases l with
    | number text | null =>
      cases ht
      exact .token .advance fun _ _ => .pure rfl
    | bool b =>
      cases b with
      | true | false =>
        cases ht
        exact .token .advance fun _ _ => .pure rfl
  | .identifier _ name, h => by
    refine Expr.opens_of_prefixForm fun {n rest} _ hn => ?_
    obtain _ | m := n
    · cases hn
    rw [Parse.prefixForm_succ, Expr.render, Lexeme.word_of_isName h]
    refine .seen fun s => ?_
    exact .token .advance fun _ _ => .pure rfl
  | .prefixed _ op e, h => by
    refine Expr.opens_of_prefixForm fun {n rest} hs hn => ?_
    rw [Expr.render_prefixed] at hn ⊢
    rw [List.length_cons] at hn
    obtain _ | m := n
    · omega
    rw [Parse.prefixForm_succ]
    refine .seen fun s => ?_
    have operand : ∀ start, (do
        let _ ← Parse.advance
        let operand ← Parse.expr m .unary
        return .prefixed (← Parse.spanFrom start) op operand : Parse Expr).Reads
          (.mark op.kind :: e.renderAt Power.unary.rank) rest fun e' =>
            e'.erase = .prefixed .null op e.erase := by
      intro start
      refine .token .advance fun _ _ => ?_
      refine .last ((Expr.opens e h).reads_at Expr.stands_unary hs (by omega)) fun e' he => ?_
      refine .peek .spanFrom fun _ _ => .pure ?_
      rw [Expr.erase, he]
    cases op with
    | negate | not | addressOf | dereference => exact operand _
  | .binary _ op l r, h => by
    refine (Expr.opens l h.1).extend Expr.render_binary (Nat.le_refl _) (by cases op <;> decide)
      (fun q hq => hq) ?_
    intro l' n rest hl hs hn
    obtain _ | m := n
    · omega
    rw [Parse.infixForm]
    refine .last ((Expr.opens r h.2).reads_at Expr.stands_of_lt hs (by omega)) fun r' hr => .pure ?_
    rw [Expr.erase, Expr.erase, hl, hr]
  | .logical _ op l r, h => by
    refine (Expr.opens l h.1).extend Expr.render_logical (Nat.le_refl _) (by cases op <;> decide)
      (fun q hq => hq) ?_
    intro l' n rest hl hs hn
    obtain _ | m := n
    · omega
    rw [Parse.infixForm]
    refine .last ((Expr.opens r h.2).reads_at Expr.stands_of_lt hs (by omega)) fun r' hr => .pure ?_
    rw [Expr.erase, Expr.erase, hl, hr]
  | .assign _ l r, h => by
    refine (Expr.opens l h.1).extend Expr.render_assign (Nat.le_succ _)
      (by decide) (fun q hq => hq) ?_
    intro l' n rest hl hs hn
    obtain _ | m := n
    · omega
    rw [Parse.infixForm]
    refine .last ((Expr.opens r h.2).reads_at (fun _ => r.stands_comma) hs (by omega)) fun r' hr =>
      .pure ?_
    rw [Expr.erase, Expr.erase, hl, hr]
  | .cast _ e t, h => by
    refine (Expr.opens e h.1).extend Expr.render_cast (Nat.le_refl _)
      (by decide) (fun q hq => hq) ?_
    intro e' n rest he _ hn
    obtain _ | m := n
    · omega
    rw [Parse.infixForm]
    refine .last (t.reads h.2 (by omega)) fun t' ht => .pure ?_
    rw [Expr.erase, Expr.erase, he, ht]
  | .call _ f es, h => by
    refine (Expr.opens f h.1).extend Expr.render_call (Nat.le_refl _)
      (by decide) (fun q hq => hq) ?_
    intro f' n rest hf _ hn
    simp only [List.length_append, List.length_cons, List.length_nil] at hn
    obtain _ | m := n
    · omega
    rw [Parse.infixForm]
    refine .bind (Expr.readsAll es h.2 rfl (by omega)) fun es' hes => ?_
    refine .token (.expect rfl) fun _ _ => .peek .spanFrom fun _ _ => .pure ?_
    rw [Expr.erase, Expr.erase, hf, hes]
  | .conditional _ c t none, h =>
    Expr.opens_of_prefixForm fun hs hn =>
      Expr.reads_conditional_none (Expr.opens c h.1) (Block.opens t h.2) hs.otherwise (by omega)
  | .conditional _ c t (some e), h =>
    Expr.opens_of_prefixForm fun _ hn =>
      Expr.reads_conditional_some (Expr.opens c h.1) (Block.opens t h.2.1) (Block.opens e h.2.2)
        (by omega)
  | .block b, h =>
    Expr.opens_of_prefixForm fun _ hn => Expr.reads_block (Block.opens b h)
      (by rw [Expr.render] at hn; omega)

/-- The arguments of a call, up to a closing parenthesis. -/
theorem Expr.readsAll : ∀ (es : List Expr) {n : Nat} {rest : List Lexeme}, Expr.WellFormedAll es →
    headKind rest = .closeParen → 8 * (Expr.renderAll es).length + 2 ≤ n →
    (Parse.arguments n).Reads (Expr.renderAll es) rest fun es' =>
      Expr.eraseAll es' = Expr.eraseAll es
  | [], n, rest, _, hr, hn => by
    obtain _ | m := n
    · omega
    rw [Parse.arguments, Expr.renderAll]
    refine .seenKind ?_
    rw [List.nil_append, if_pos hr]
    exact .pure rfl
  | [e], n, rest, h, hr, hn => by
    rw [Expr.renderAll] at hn ⊢
    obtain _ | m := n
    · omega
    have stops : Stops .comma rest := .of_none (by rw [hr]; rfl) (by rw [hr]; nofun)
    rw [Parse.arguments]
    refine .seenKind ?_
    rw [if_neg ((e.render_starts h.1).append.ne (by decide))]
    refine .last ((Expr.opens e h.1).reads_expr e.stands_comma stops (by omega)) fun e' he => ?_
    refine .declined (by rw [List.nil_append, hr]; nofun) ?_
    refine .pure ?_
    rw [Expr.eraseAll, Expr.eraseAll, he]
    rfl
  | e :: f :: es, n, rest, h, hr, hn => by
    rw [Expr.renderAll] at hn ⊢
    simp only [List.length_append, List.length_cons] at hn
    obtain _ | m := n
    · omega
    rw [Parse.arguments]
    refine .seenKind ?_
    rw [if_neg ((e.render_starts h.1).append.append.ne (by decide))]
    refine .bind ((Expr.opens e h.1).reads_expr e.stands_comma (.of_none rfl nofun) (by omega))
      fun e' he => ?_
    refine .accepted rfl ?_
    refine .last (Expr.readsAll (f :: es) h.2 hr (by omega)) fun es' hes => .pure ?_
    rw [Expr.eraseAll, Expr.eraseAll, he, hes]

/-- What follows a statement is neither an `else` nor a semicolon, which would belong to it. -/
theorem Stmt.reads : ∀ (s : Stmt) {n : Nat} {rest : List Lexeme}, s.WellFormed →
    headKind rest ≠ .kwElse → headKind rest ≠ .semicolon → 8 * s.render.length ≤ n + 6 →
    (Parse.stmt n).Reads s.render rest fun s' => s'.erase = s.erase
  | .expr _ e, n, rest, h, hr, hr', hn => by
    have pos := e.render_pos
    cases hb : e.isBlockLike with
    | false =>
      have layout : (if e.isBlockLike then e.render else
          bracket (startsBlock e.render) e.render ++ [.mark .semicolon]) =
          bracket (startsBlock e.render) e.render ++ [.mark .semicolon] :=
        if_neg (by rw [hb]; nofun)
      rw [Stmt.render, layout] at hn ⊢
      simp only [List.length_append, List.length_cons, List.length_nil] at hn
      obtain _ | m := n
      · omega
      exact Stmt.reads_bracketed (Expr.opens e h) (e.render_starts h) (by omega)
    | true =>
      rw [Stmt.render, if_pos hb] at hn ⊢
      obtain _ | m := n
      · omega
      match e, h, hb, hn with
      | .block b, h, _, hn =>
        refine Stmt.reads_blockLike ?_ (Expr.reads_block (Block.opens b h) ?_) hr'
        · obtain ⟨_, ss⟩ := b
          rfl
        · rw [Expr.render] at hn
          omega
      | .conditional _ c t none, h, _, hn =>
        exact Stmt.reads_blockLike rfl (Expr.reads_conditional_none (Expr.opens c h.1)
          (Block.opens t h.2) hr (by omega)) hr'
      | .conditional _ c t (some e), h, _, hn =>
        exact Stmt.reads_blockLike rfl (Expr.reads_conditional_some (Expr.opens c h.1)
          (Block.opens t h.2.1) (Block.opens e h.2.2) (by omega)) hr'
  | .define _ name (some t) none, n, rest, h, _, _, hn => by
    rw [Stmt.render, Lexeme.word_of_isName h.1] at hn ⊢
    simp only [List.length_append, List.length_cons, List.length_nil] at hn
    obtain _ | _ | m := n
    · omega
    · omega
    rw [Parse.stmt]
    refine .seen fun s => ?_
    refine .token .advance fun _ _ => ?_
    rw [Parse.definition]
    refine .word (.expectFor rfl) fun s' => ?_
    refine .seenKind ?_
    refine .accepted rfl ?_
    refine .bind (t.reads h.2 (by omega)) fun t' ht => ?_
    refine .declined nofun ?_
    refine .token (.expect rfl) fun _ _ => .peek .spanFrom fun _ _ => .pure ?_
    rw [Stmt.erase, Stmt.erase, Option.map_some, Option.map_some, ht]
  | .define _ name (some t) (some e), n, rest, h, _, _, hn => by
    rw [Stmt.render, Lexeme.word_of_isName h.1] at hn ⊢
    simp only [List.length_append, List.length_cons, List.length_nil] at hn
    obtain _ | _ | m := n
    · omega
    · omega
    rw [Parse.stmt]
    refine .seen fun s => ?_
    refine .token .advance fun _ _ => ?_
    rw [Parse.definition]
    refine .word (.expectFor rfl) fun s' => ?_
    refine .seenKind ?_
    refine .accepted rfl ?_
    refine .bind (t.reads h.2.1 (by omega)) fun t' ht => ?_
    refine .accepted rfl ?_
    refine .bind ((Expr.opens e h.2.2).reads_expr e.stands_default (.of_none rfl nofun) (by omega))
      fun e' he => ?_
    refine .token (.expect rfl) fun _ _ => .peek .spanFrom fun _ _ => .pure ?_
    rw [Stmt.erase, Stmt.erase, Option.map_some, Option.map_some, ht, he]
  | .define _ name none (some e), n, rest, h, _, _, hn => by
    rw [Stmt.render, Lexeme.word_of_isName h.1] at hn ⊢
    simp only [List.length_append, List.length_cons, List.length_nil] at hn
    obtain _ | _ | m := n
    · omega
    · omega
    rw [Parse.stmt]
    refine .seen fun s => ?_
    refine .token .advance fun _ _ => ?_
    rw [Parse.definition]
    refine .word (.expectFor rfl) fun s' => ?_
    refine .seenKind ?_
    refine .declined nofun ?_
    refine .accepted rfl ?_
    refine .bind ((Expr.opens e h.2).reads_expr e.stands_default (.of_none rfl nofun) (by omega))
      fun e' he => ?_
    refine .token (.expect rfl) fun _ _ => .peek .spanFrom fun _ _ => .pure ?_
    rw [Stmt.erase, Stmt.erase, he]
  | .ret _ none, n, rest, _, _, _, hn => by
    rw [Stmt.render] at hn ⊢
    simp only [List.length_cons, List.length_nil] at hn
    obtain _ | m := n
    · omega
    rw [Parse.stmt]
    refine .seen fun s => ?_
    refine .token .advance fun _ _ => .seenKind ?_
    refine .token (.expect rfl) fun _ _ => .peek .spanFrom fun _ _ => .pure rfl
  | .ret _ (some e), n, rest, h, _, _, hn => by
    rw [Stmt.render] at hn ⊢
    simp only [List.length_append, List.length_cons, List.length_nil] at hn
    obtain _ | m := n
    · omega
    rw [Parse.stmt]
    refine .seen fun s => ?_
    refine .token .advance fun _ _ => .seenKind ?_
    rw [if_neg ((e.render_starts h).append.append.ne (by decide))]
    refine .bind ((Expr.opens e h).reads_expr e.stands_default (.of_none rfl nofun) (by omega))
      fun e' he => ?_
    refine .token (.expect rfl) fun _ _ => .peek .spanFrom fun _ _ => .pure ?_
    rw [Stmt.erase, Stmt.erase, he]
  | .loop _ c b, n, rest, h, _, _, hn => by
    have pos := b.render_length
    rw [Stmt.render] at hn ⊢
    simp only [List.length_append, List.length_cons] at hn
    obtain _ | m := n
    · omega
    rw [Parse.stmt]
    refine .seen fun s => ?_
    refine .token .advance fun _ _ => ?_
    refine .bind ((Expr.opens c h.1).reads_expr c.stands_default Block.stops (by omega))
      fun c' hc => ?_
    refine .last ((Block.opens b h.2).reads (by omega)) fun b' hb => ?_
    refine .peek .spanFrom fun _ _ => .pure ?_
    rw [Stmt.erase, Stmt.erase, hc, hb]

/-- The statements of a block, up to a closing brace. -/
theorem Stmt.readsAll : ∀ (ss : List Stmt) {n : Nat} {rest : List Lexeme}, Stmt.WellFormedAll ss →
    headKind rest = .closeCurly → 8 * (Stmt.renderAll ss).length + 1 ≤ n →
    (Parse.statements n).Reads (Stmt.renderAll ss) rest fun ss' =>
      Stmt.eraseAll ss' = Stmt.eraseAll ss
  | [], n, rest, _, hr, hn => by
    obtain _ | m := n
    · omega
    rw [Parse.statements, Stmt.renderAll]
    refine .seenKind ?_
    rw [List.nil_append, if_pos (.inl hr)]
    exact .pure rfl
  | s :: ss, n, rest, h, hr, hn => by
    have starts := s.render_starts h.1
    obtain ⟨follow, follow'⟩ : headKind (Stmt.renderAll ss ++ rest) ≠ .kwElse ∧
        headKind (Stmt.renderAll ss ++ rest) ≠ .semicolon := by
      cases ss with
      | nil =>
        rw [Stmt.renderAll, List.nil_append, hr]
        exact ⟨nofun, nofun⟩
      | cons s' ss =>
        have starts' : StartsIn stmtStarts (Stmt.renderAll (s' :: ss)) :=
          (s'.render_starts h.2.1).append
        exact ⟨starts'.append.ne (by decide), starts'.append.ne (by decide)⟩
    obtain ⟨l, us, hl, -⟩ := id starts
    rw [Stmt.renderAll] at hn ⊢
    rw [List.length_append] at hn
    have pos : 0 < s.render.length := by
      rw [hl]
      exact Nat.succ_pos _
    obtain _ | m := n
    · omega
    rw [Parse.statements]
    refine .seenKind ?_
    rw [if_neg (not_or.mpr ⟨starts.append.append.ne (by decide),
      starts.append.append.ne (by decide)⟩)]
    refine .bind (Stmt.reads s h.1 follow follow' (by omega)) fun s' hs => ?_
    refine .last (Stmt.readsAll ss h.2 hr (by omega)) fun ss' hss => .pure ?_
    rw [Stmt.eraseAll, Stmt.eraseAll, hs, hss]

/-- A block is its statements between braces. -/
theorem Block.opens : ∀ b : Block, b.WellFormed → b.Opens
  | .mk _ ss, h => by
    refine ⟨fun {n rest} hn => ?_⟩
    rw [Block.render] at hn ⊢
    simp only [List.length_cons, List.length_append, List.length_nil] at hn
    obtain _ | m := n
    · omega
    rw [Parse.block]
    refine .token (.expect rfl) fun _ _ => ?_
    refine .bind (Stmt.readsAll ss h rfl (by omega)) fun ss' hss => ?_
    refine .token (.expect rfl) fun _ _ => .peek .spanFrom fun _ _ => .pure ?_
    rw [Block.erase, Block.erase, hss]

end

/-! ### Items -/

/-- The parameters of a function, up to a closing parenthesis. -/
theorem Parameter.readsAll : ∀ (ps : List Parameter) {n : Nat} {rest : List Lexeme},
    (∀ p ∈ ps, p.WellFormed) → headKind rest = .closeParen →
    (Parameter.renderAll ps).length < n →
    (Parse.parameters n).Reads (Parameter.renderAll ps) rest fun ps' =>
      ps'.map Parameter.erase = ps.map Parameter.erase
  | [], n, rest, _, hr, hn => by
    obtain _ | m := n
    · omega
    rw [Parse.parameters, Parameter.renderAll]
    refine .seenKind ?_
    rw [List.nil_append, if_pos hr]
    exact .pure rfl
  | [p], n, rest, h, hr, hn => by
    obtain ⟨wn, wt⟩ := h p (.head _)
    rw [Parameter.renderAll, Parameter.render, Lexeme.word_of_isName wn] at hn ⊢
    simp only [List.length_cons] at hn
    obtain _ | m := n
    · omega
    rw [Parse.parameters]
    refine .seenKind ?_
    refine .word (.expect rfl) fun s => ?_
    refine .token (.expect rfl) fun _ _ => ?_
    refine .last (p.type.reads wt (by omega)) fun t' ht => ?_
    refine .peek .spanFrom fun _ _ => .declined (by rw [List.nil_append, hr]; nofun) ?_
    refine .pure ?_
    rw [List.map_cons, List.map_cons, Parameter.erase, Parameter.erase, ht]
  | p :: q :: ps, n, rest, h, hr, hn => by
    obtain ⟨wn, wt⟩ := h p (.head _)
    rw [Parameter.renderAll, Parameter.render, Lexeme.word_of_isName wn] at hn ⊢
    simp only [List.length_append, List.length_cons] at hn
    obtain _ | m := n
    · omega
    rw [Parse.parameters]
    refine .seenKind ?_
    refine .word (.expect rfl) fun s => ?_
    refine .token (.expect rfl) fun _ _ => ?_
    refine .bind (p.type.reads wt (by omega)) fun t' ht => ?_
    refine .peek .spanFrom fun _ _ => .accepted rfl ?_
    refine .last (Parameter.readsAll (q :: ps) (fun p hp => h p (.tail _ hp)) hr
      (by omega)) fun ps' hps => .pure ?_
    rw [List.map_cons, List.map_cons, Parameter.erase, Parameter.erase, ht, hps]

/-- The members of a struct, up to a closing brace. -/
theorem StructDecl.readsMembers : ∀ (ms : List (String × TypeExpr)) {n : Nat} {rest : List Lexeme},
    (∀ m ∈ ms, TokenKind.IsName m.1 ∧ m.2.WellFormed) → headKind rest = .closeCurly →
    (StructDecl.renderMembers ms).length < n →
    (Parse.members n).Reads (StructDecl.renderMembers ms) rest fun ms' =>
      ms'.map (fun m => (m.1, m.2.erase)) = ms.map fun m => (m.1, m.2.erase)
  | [], n, rest, _, hr, hn => by
    obtain _ | m := n
    · omega
    rw [Parse.members, StructDecl.renderMembers]
    refine .seenKind ?_
    rw [List.nil_append, if_pos hr]
    exact .pure rfl
  | (name, t) :: ms, n, rest, h, hr, hn => by
    obtain ⟨wn, wt⟩ := h (name, t) (.head _)
    rw [StructDecl.renderMembers, Lexeme.word_of_isName wn] at hn ⊢
    simp only [List.length_append, List.length_cons] at hn
    obtain _ | m := n
    · omega
    rw [Parse.members]
    refine .seenKind ?_
    refine .word (.expect rfl) fun s => ?_
    refine .token (.expect rfl) fun _ _ => ?_
    refine .bind (t.reads wt (by omega)) fun t' ht => ?_
    refine .accepted rfl ?_
    refine .last (StructDecl.readsMembers ms (fun m hm => h m (.tail _ hm)) hr
      (by omega)) fun ms' hms => .pure ?_
    rw [List.map_cons, List.map_cons, hms, ht]

/-- Name, parameters and result of a function. -/
theorem FunctionDecl.readsHead {f : FunctionDecl} (h : f.WellFormed) {n : Nat}
    (hr : headKind rest ≠ .arrow) (hn : f.renderHead.length < n) :
    (Parse.functionHead n).Reads f.renderHead rest fun r => r.1 = f.name ∧
      r.2.1.map Parameter.erase = f.parameters.map Parameter.erase ∧
        r.2.2.map TypeExpr.erase = f.result.map TypeExpr.erase := by
  rw [renderHead, Lexeme.word_of_isName h.name] at hn ⊢
  simp only [List.length_append, List.length_cons] at hn
  rw [Parse.functionHead]
  refine .token (.expect rfl) fun _ _ => .word (.expectFor rfl) fun s => ?_
  refine .token (.expect rfl) fun _ _ => ?_
  refine .bind (Parameter.readsAll f.parameters h.parameters rfl (by omega)) fun ps' hps => ?_
  refine .token (.expect rfl) fun _ _ => ?_
  cases hres : f.result with
  | none =>
    refine .declined hr ?_
    exact .pure ⟨rfl, hps, rfl⟩
  | some t =>
    rw [hres] at hn
    refine .accepted rfl ?_
    refine .last (t.reads (h.result t hres) ?_) fun t' ht => .pure ⟨rfl, hps, ?_⟩
    · simp only [Option.map_some, Option.getD_some, List.length_cons] at hn
      omega
    · rw [Option.map_some, Option.map_some, ht]

/-- A function or a struct is told by its first token. -/
theorem Item.reads {i : Item} (h : i.WellFormed) {n : Nat} (hn : 8 * i.render.length ≤ n) :
    (Parse.item n).Reads i.render rest fun i' => i'.erase = i.erase := by
  cases i with
  | function f =>
    have h : f.WellFormed := h
    have wb := h.body
    rw [Item.render, FunctionDecl.render] at hn ⊢
    cases hb : f.body with
    | block b =>
      rw [hb] at hn wb
      have pos := b.render_length
      simp only [List.length_append] at hn
      have head : ∃ us, f.renderHead ++ b.render = .mark .kwDef :: us := ⟨_, rfl⟩
      rw [Parse.item]
      refine .seen fun s => ?_
      refine .bind (FunctionDecl.readsHead h ?_ (by omega)) ?_
      · obtain ⟨_, ss⟩ := b
        exact nofun
      rintro ⟨name, ps, result⟩ ⟨rfl, hps, hres⟩
      refine .last ((Block.opens b wb).reads (by omega)) fun b' hb' => ?_
      refine .peek .spanFrom fun _ _ => .pure ?_
      simp only [Item.erase, FunctionDecl.erase, FunctionBody.erase, hb, hps, hres, hb']
    | foreign abi span =>
      rw [hb] at hn
      simp only [List.length_append, List.length_cons, List.length_nil] at hn
      rw [Parse.item]
      refine .seen fun s => ?_
      refine .token .advance fun _ _ => .word (.expectFor rfl) fun s' => ?_
      refine .bind (FunctionDecl.readsHead h nofun (by omega)) ?_
      rintro ⟨name, ps, result⟩ ⟨rfl, hps, hres⟩
      refine .token (.expect rfl) fun _ _ => .peek .spanFrom fun _ _ => .pure ?_
      simp only [Item.erase, FunctionDecl.erase, FunctionBody.erase, hb, hps, hres]
  | struct d =>
    have h : d.WellFormed := h
    rw [Item.render, StructDecl.render, Lexeme.word_of_isName h.name] at hn ⊢
    simp only [List.length_append, List.length_cons, List.length_nil] at hn
    rw [Parse.item]
    refine .seen fun s => ?_
    refine .token .advance fun _ _ => .word (.expect rfl) fun s' => ?_
    refine .token (.expect rfl) fun _ _ => ?_
    refine .bind (StructDecl.readsMembers d.members h.members rfl (by omega)) fun ms' hms => ?_
    refine .token (.expect rfl) fun _ _ => .peek .spanFrom fun _ _ => .pure ?_
    simp only [Item.erase, StructDecl.erase, hms]

/-- An item starts with a keyword. -/
theorem Item.render_starts (i : Item) : StartsIn [.kwDef, .kwExtern, .kwStruct] i.render := by
  cases i with
  | function f =>
    rw [Item.render, FunctionDecl.render]
    cases f.body with
    | block b | foreign abi span => exact ⟨_, _, rfl, by decide⟩
  | struct d => exact ⟨_, _, rfl, by decide⟩

/-- Items up to the end. -/
theorem Item.readsAll : ∀ (is : List Item) {n : Nat}, (∀ i ∈ is, i.WellFormed) →
    8 * (Item.renderAll is).length < n →
    (Parse.items n).Reads (Item.renderAll is) [] fun is' => is'.map Item.erase = is.map Item.erase
  | [], n, _, hn => by
    obtain _ | m := n
    · omega
    rw [Parse.items, Item.renderAll]
    refine .seenKind ?_
    exact .pure rfl
  | i :: is, n, h, hn => by
    obtain ⟨l, us, hl, -⟩ := i.render_starts
    have pos : 0 < i.render.length := by
      rw [hl]
      exact Nat.succ_pos _
    rw [Item.renderAll] at hn ⊢
    rw [List.length_append] at hn
    obtain _ | m := n
    · omega
    rw [Parse.items]
    refine .seenKind ?_
    rw [if_neg (i.render_starts.append.append.ne (by decide))]
    refine .bind (Item.reads (h i (.head _)) (by omega)) fun i' hi => ?_
    refine .last (Item.readsAll is (fun i hi => h i (.tail _ hi)) (by omega))
      fun is' his => .pure ?_
    rw [List.map_cons, List.map_cons, hi, his]

/-! ### Modules -/

/-- None of the tokens is the one that ends a program. -/
def Inner (ts : List Lexeme) : Prop := ∀ l ∈ ts, l.kind ≠ .eof

namespace Inner

variable {l : Lexeme} {ts us : List Lexeme}

theorem nil : Inner [] := fun _ hl => by cases hl

theorem cons (hl : l.kind ≠ .eof) (h : Inner ts) : Inner (l :: ts) :=
  List.forall_mem_cons.mpr ⟨hl, h⟩

theorem append (ht : Inner ts) (hu : Inner us) : Inner (ts ++ us) :=
  List.forall_mem_append.mpr ⟨ht, hu⟩

theorem snoc (ht : Inner ts) (hl : l.kind ≠ .eof) : Inner (ts ++ [l]) := ht.append (cons hl nil)

theorem word {s : String} (h : TokenKind.IsName s) (ht : Inner ts) : Inner (.word s :: ts) := by
  rw [Lexeme.word_of_isName h]
  exact ht.cons nofun

theorem bracket {needed : Bool} (h : Inner ts) : Inner (Gauge.bracket needed ts) := by
  cases needed with
  | true => exact cons nofun (h.append (cons nofun nil))
  | false => exact h

theorem operator {f : InfixForm} (h : Inner ts) : Inner (.mark f.kind :: ts) := by
  refine h.cons fun he => ?_
  have := f.ofKind?_kind
  rw [show f.kind = .eof from he] at this
  cases this

end Inner

theorem TypeExpr.render_inner : ∀ t : TypeExpr, t.WellFormed → Inner t.render
  | .named _ _, h => Inner.nil.word h
  | .pointer _ t, h | .mutable _ t, h => (TypeExpr.render_inner t h).cons nofun

mutual

/-- No token of a tree ends the program. -/
theorem Expr.render_inner : ∀ e : Expr, e.WellFormed → Inner e.render
  | .literal _ (.number _), _ | .literal _ (.bool true), _ | .literal _ (.bool false), _
  | .literal _ .null, _ => Inner.nil.cons (by nofun)
  | .identifier _ _, h => Inner.nil.word h
  | .prefixed _ op e, h => by
    refine (Expr.render_inner e h).bracket.cons ?_
    cases op <;> exact nofun
  | .binary _ _ l r, h | .logical _ _ l r, h | .assign _ l r, h =>
    (Expr.render_inner l h.1).bracket.append (Expr.render_inner r h.2).bracket.operator
  | .call _ f es, h =>
    (Expr.render_inner f h.1).bracket.append
      (((Expr.renderAll_inner es h.2).snoc (by nofun)).cons (by nofun))
  | .cast _ e t, h =>
    (Expr.render_inner e h.1).bracket.append ((t.render_inner h.2).cons (by nofun))
  | .conditional _ c t none, h =>
    ((Expr.render_inner c h.1).append (Block.render_inner t h.2)).cons (by nofun)
  | .conditional _ c t (some e), h =>
    ((Expr.render_inner c h.1).append ((Block.render_inner t h.2.1).append
      ((Block.render_inner e h.2.2).cons (by nofun)))).cons (by nofun)
  | .block b, h => Block.render_inner b h

theorem Expr.renderAll_inner : ∀ es : List Expr, Expr.WellFormedAll es → Inner (Expr.renderAll es)
  | [], _ => .nil
  | [e], h => Expr.render_inner e h.1
  | e :: f :: es, h =>
    (Expr.render_inner e h.1).append ((Expr.renderAll_inner (f :: es) h.2).cons nofun)

/-- No statement holds the token that ends a program. -/
theorem Stmt.render_inner : ∀ s : Stmt, s.WellFormed → Inner s.render
  | .expr _ e, h => by
    rw [Stmt.render]
    split
    · exact Expr.render_inner e h
    · exact (Expr.render_inner e h).bracket.snoc (by nofun)
  | .define _ _ (some t) none, h =>
    (Inner.word h.1 (((t.render_inner h.2).snoc (by nofun)).cons
      (by nofun))).cons (by nofun)
  | .define _ _ (some t) (some e), h =>
    (Inner.word h.1 (((t.render_inner h.2.1).append
      (((Expr.render_inner e h.2.2).snoc (by nofun)).cons (by nofun))).cons
      (by nofun))).cons (by nofun)
  | .define _ _ none (some e), h =>
    (Inner.word h.1 (((Expr.render_inner e h.2).snoc (by nofun)).cons
      (by nofun))).cons (by nofun)
  | .ret _ none, _ => (Inner.nil.cons (by nofun)).cons (by nofun)
  | .ret _ (some e), h =>
    ((Expr.render_inner e h).snoc (by nofun)).cons (by nofun)
  | .loop _ c b, h => ((Expr.render_inner c h.1).append (Block.render_inner b h.2)).cons (by nofun)

theorem Stmt.renderAll_inner : ∀ ss : List Stmt, Stmt.WellFormedAll ss → Inner (Stmt.renderAll ss)
  | [], _ => .nil
  | s :: ss, h => (Stmt.render_inner s h.1).append (Stmt.renderAll_inner ss h.2)

theorem Block.render_inner : ∀ b : Block, b.WellFormed → Inner b.render
  | .mk _ ss, h => ((Stmt.renderAll_inner ss h).snoc (by nofun)).cons (by nofun)

end

theorem Parameter.renderAll_inner : ∀ ps : List Parameter, (∀ p ∈ ps, p.WellFormed) →
    Inner (Parameter.renderAll ps)
  | [], _ => .nil
  | [p], h =>
    .word (h p (.head _)).name
      ((p.type.render_inner (h p (.head _)).type).cons (by nofun))
  | p :: q :: ps, h =>
    (Inner.word (h p (.head _)).name
      ((p.type.render_inner (h p (.head _)).type).cons (by nofun))).append
      ((Parameter.renderAll_inner (q :: ps) fun p hp => h p (.tail _ hp)).cons
        (by nofun))

/-- So it is with the tokens of a function. -/
theorem FunctionDecl.render_inner {f : FunctionDecl} (h : f.WellFormed) : Inner f.render := by
  have head : Inner f.renderHead := by
    refine (Inner.word h.name (((Parameter.renderAll_inner _ h.parameters).append
      (Inner.cons (by nofun) ?_)).cons (by nofun))).cons (by nofun)
    cases hr : f.result with
    | none => exact .nil
    | some t => exact (t.render_inner (h.result t hr)).cons (by nofun)
  have body := h.body
  rw [FunctionDecl.render]
  cases hb : f.body with
  | block b =>
    rw [hb] at body
    exact head.append (b.render_inner body)
  | foreign abi span =>
    exact ((head.snoc (by nofun)).cons (by nofun)).cons (by nofun)

theorem StructDecl.renderMembers_inner : ∀ ms : List (String × TypeExpr),
    (∀ m ∈ ms, TokenKind.IsName m.1 ∧ m.2.WellFormed) → Inner (StructDecl.renderMembers ms)
  | [], _ => .nil
  | (name, t) :: ms, h =>
    .word (h (name, t) (.head _)).1
      (((t.render_inner (h (name, t) (.head _)).2).append
        ((StructDecl.renderMembers_inner ms fun m hm => h m (.tail _ hm)).cons
          (by nofun))).cons (by nofun))

/-- So it is with the tokens of a module. -/
theorem Item.renderAll_inner : ∀ is : List Item, (∀ i ∈ is, i.WellFormed) →
    Inner (Item.renderAll is)
  | [], _ => .nil
  | .function f :: is, h =>
    (FunctionDecl.render_inner (h (.function f) (.head _))).append
      (Item.renderAll_inner is fun i hi => h i (.tail _ hi))
  | .struct d :: is, h => by
    have hd : d.WellFormed := h (.struct d) (.head _)
    refine Inner.append ?_ (Item.renderAll_inner is fun i hi => h i (.tail _ hi))
    exact (Inner.word hd.name (((StructDecl.renderMembers_inner _ hd.members).snoc
      (by nofun)).cons (by nofun))).cons (by nofun)

/-- At the start of tokens none of which is the last one, all of them are ahead. -/
theorem Cursor.start_ahead {file : String} {tokens : List Token} {finish : Position}
    (h : Inner (tokens.map Token.lexeme)) :
    (Cursor.start file (tokens ++ [.eof finish])).ahead = tokens := by
  have plain : ∀ t ∈ tokens, (decide (t.kind ≠ .eof)) = true := fun t ht =>
    decide_eq_true (h _ (List.mem_map_of_mem ht))
  show (tokens ++ [Token.eof finish]).filter (fun t => decide (t.kind ≠ .eof)) = tokens
  rw [List.filter_append, List.filter_eq_self.mpr plain]
  exact List.append_nil tokens

/-- **Reading undoes writing.**  Tokens that say what a well-formed module says, wherever they
stand, are read as that module up to spans. -/
theorem ModuleSyntax.parse_render {m : ModuleSyntax} (hm : m.WellFormed) {tokens : List Token}
    (ht : tokens.map Token.lexeme = m.render) (file : String) (finish : Position) :
    ∃ m', parse file (tokens ++ [.eof finish]) = .ok m' ∧ m'.erase = m.erase := by
  have ahead : (Cursor.start file (tokens ++ [.eof finish])).ahead = tokens :=
    Cursor.start_ahead (ht ▸ Item.renderAll_inner m.items hm)
  have lexemes : (Cursor.start file (tokens ++ [.eof finish])).lexemes = m.render ++ [] := by
    rw [Cursor.lexemes, ahead, ht, List.append_nil]
  have depth : 8 * m.render.length < (Cursor.start file (tokens ++ [.eof finish])).depth := by
    rw [Cursor.depth, ahead, ← ht, List.length_map, depthPerToken]
    omega
  obtain ⟨is, c, hc, -, his⟩ := Item.readsAll m.items hm depth _ lexemes
  refine ⟨⟨is, ⟨0, file⟩, c.position⟩, ?_, ?_⟩
  · rw [parse]
    show (Parse.items _ _ >>= _) = _
    rw [hc]
    rfl
  · rw [ModuleSyntax.erase, ModuleSyntax.erase, his]

/-- The module `def f(a: mut U8) { a = b = (a + 2) * -a(1) as U8 - (b - 3); ({ } && a); }`. -/
def ModuleSyntax.nested : ModuleSyntax :=
  let z := Span.null
  let a : Expr := .identifier z "a"
  let b : Expr := .identifier z "b"
  let number (s : String) : Expr := .literal z (.number s)
  let product : Expr := .binary z .multiply (.binary z .add a (number "2"))
    (.cast z (.prefixed z .negate (.call z a [number "1"])) (.named z "U8"))
  let sum : Expr := .binary z .subtract product (.binary z .subtract b (number "3"))
  ⟨[.function ⟨"f", [⟨"a", .mutable z (.named z "U8"), z⟩], none,
    .block (.mk z [.expr z (.assign z a (.assign z b sum)),
      .expr z (.logical z .and (.block (.mk z [])) a)]), z⟩], z⟩

/-- The module is written with the parentheses that it needs, and read back. -/
theorem ModuleSyntax.parse_render_nested :
    nested.WellFormed ∧
      nested.render.map Lexeme.value = ["def", "f", "(", "a", ":", "mut", "U8", ")", "\x7b",
        "a", "=", "b", "=", "(", "a", "+", "2", ")", "*", "-", "a", "(", "1", ")", "as", "U8", "-",
        "(", "b", "-", "3", ")", ";", "(", "\x7b", "\x7d", "&&", "a", ")", ";", "\x7d"] ∧
      ∃ m', parse "m.g" ((nested.render.map fun l => ⟨l.kind, l.value, .null⟩) ++ [.eof .null]) =
        .ok m' ∧ m'.erase = nested.erase := by
  have wellFormed : nested.WellFormed := by
    intro i hi
    rw [List.mem_singleton.mp hi]
    constructor
    · decide
    · intro p hp
      rw [List.mem_singleton.mp hp]
      exact ⟨by decide, by unfold TypeExpr.WellFormed TypeExpr.WellFormed; decide⟩
    · exact nofun
    · simp only [FunctionBody.WellFormed, Block.WellFormed, Stmt.WellFormedAll, Stmt.WellFormed,
        Expr.WellFormed, Expr.WellFormedAll, TypeExpr.WellFormed]
      decide
  exact ⟨wellFormed, by decide +kernel,
    ModuleSyntax.parse_render wellFormed (by decide +kernel) "m.g" .null⟩

end Gauge
