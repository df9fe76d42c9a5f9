import Gauge.Proofs.Success
import Gauge.Proofs.Syntax.Extent
import Gauge.Proofs.Syntax.Goals

/-!
# Proofs — where reading stops

The readers follow the goals of `Goal.answer` token by token (`Parse.Meets`): one that succeeds has
met its goals and no more, one that fails stands at the token that the goals refuse.  The bound on
the depth is never met on the way, so a higher one changes nothing.  The same pass over the readers
says what spans the parts of a tree have, by the rules of `Cursor.Reads`.

So an error stands at the first token that cannot be read on: the tokens before it start some
program, and with that token behind them they start none (`parse_stops`).
-/

namespace Gauge

/-! ### Places -/

namespace Cursor

/-- The kinds of the tokens that are left, with that of the end. -/
def kinds (c : Cursor) : List TokenKind := c.ahead.map (·.kind) ++ [.eof]

variable {c d d' : Cursor} {m n : Nat}

theorem exists_kinds (c : Cursor) : ∃ ks, c.kinds = c.kind :: ks := by
  unfold kinds kind current
  cases c.ahead with
  | nil => exact ⟨[], rfl⟩
  | cons t ts => exact ⟨_, rfl⟩

theorem ahead_of_kind (h : c.kind ≠ .eof) : c.ahead = c.current :: c.next.ahead := by
  unfold kind current at h
  unfold current next
  cases ha : c.ahead with
  | nil =>
    rw [ha] at h
    exact absurd rfl h
  | cons t ts => rfl

theorem kinds_next (h : c.kind ≠ .eof) : c.kinds = c.kind :: c.next.kinds := by
  rw [kinds, ahead_of_kind h]
  rfl

/-- From one place to another, over at least `n` tokens. -/
structure Reaches (c : Cursor) (n : Nat) (d : Cursor) : Prop where
  ahead : d.ahead <:+ c.ahead
  finish : d.finish = c.finish
  length : d.ahead.length + n ≤ c.ahead.length

namespace Reaches

theorem refl (c : Cursor) : c.Reaches 0 c := ⟨List.suffix_refl _, rfl, le_rfl⟩

theorem trans (h : c.Reaches m d) (h' : d.Reaches n d') : c.Reaches (m + n) d' :=
  ⟨h'.ahead.trans h.ahead, h'.finish.trans h.finish, by have := h.length; have := h'.length; omega⟩

theorem mono (h : c.Reaches m d) (hn : n ≤ m) : c.Reaches n d :=
  ⟨h.ahead, h.finish, by have := h.length; omega⟩

theorem next (h : c.kind ≠ .eof) : c.Reaches 1 c.next := by
  have ahead := ahead_of_kind h
  exact ⟨⟨[c.current], ahead.symm⟩, rfl, by rw [ahead]; simp⟩

end Reaches

/-- A bound on the depth that leaves `r` calls before the next token has to be read. -/
def Bounded (c : Cursor) (r n : Nat) : Prop := depthPerToken * c.ahead.length + r ≤ n

theorem Bounded.pred {r : Nat} (hb : c.Bounded (r + 1) (n + 1)) : c.Bounded r n :=
  Nat.le_of_succ_le_succ hb

/-- Each token that was read leaves room for more calls. -/
theorem Bounded.reach {r r' : Nat} (hb : c.Bounded r n) (h : c.Reaches m d)
    (hr : r' ≤ r + depthPerToken * m) : d.Bounded r' n := by
  have := h.length
  unfold Bounded depthPerToken at *
  omega

end Cursor

/-! ### Readers and goals -/

namespace Parse

open Goal (leftover)

variable {α β : Type} {c : Cursor} {x x' : Parse α} {f f' : α → Parse β} {m n : Nat}
  {g a b : Goal} {goals more : List Goal} {k : TokenKind} {Q : α → Cursor → Prop}
  {R : β → Cursor → Prop}

/-- The current token is refused, maybe with a word on what was wanted. -/
def Refuses (d : Cursor) (cause : Cause) : Prop :=
  cause = d.unexpected ∨ ∃ message, cause = d.wanted message

/-- What came of a reader that was to meet goals. -/
def Met (c : Cursor) (n : Nat) (goals : List Goal) (Q : α → Cursor → Prop) :
    Except Failure (α × Cursor) → Prop
  | .ok (a, d) => c.Reaches n d ∧
      (∀ behind, leftover (goals ++ behind) c.kinds = leftover behind d.kinds) ∧ Q a d
  | .error f => ∃ d cause, c.Reaches 0 d ∧ Refuses d cause ∧ f = .error (d.refuse cause) ∧
      ∀ behind, leftover (goals ++ behind) c.kinds = d.kinds

theorem Met.mono {r : Except Failure (α × Cursor)} (h : Met c m goals Q r) (hn : n ≤ m) :
    Met c n goals Q r := by
  cases r with
  | ok r => exact ⟨h.1.mono hn, h.2⟩
  | error e => exact h

/-- From `c` both readers do the same: they meet the goals and no more, over at least `n` tokens,
and give something as `Q` says, or they refuse the first token that the goals refuse. -/
structure Meets (c : Cursor) (x x' : Parse α) (n : Nat) (goals : List Goal)
    (Q : α → Cursor → Prop) : Prop where
  same : x' c = x c
  met : Met c n goals Q (x c)

namespace Meets

theorem pure {a : α} (h : Q a c) : Meets c (Pure.pure a) (Pure.pure a) 0 [] Q :=
  ⟨rfl, .refl c, fun _ => rfl, h⟩

theorem mono (h : Meets c x x' m goals Q) (hn : n ≤ m) : Meets c x x' n goals Q :=
  ⟨h.same, h.met.mono hn⟩

/-- Goals that the current token makes the same of may stand for each other. -/
theorem congr (h : Meets c x x' n goals Q)
    (hg : ∀ behind, leftover (more ++ behind) c.kinds = leftover (goals ++ behind) c.kinds) :
    Meets c x x' n more Q := by
  refine ⟨h.same, ?_⟩
  have met := h.met
  cases hx : x c with
  | ok r =>
    rw [hx] at met
    exact ⟨met.1, fun behind => (hg behind).trans (met.2.1 behind), met.2.2⟩
  | error e =>
    rw [hx] at met
    obtain ⟨d, cause, hd, hc, he, hl⟩ := met
    exact ⟨d, cause, hd, hc, he, fun behind => (hg behind).trans (hl behind)⟩

/-- One reader and then another: the goals of both, in turn. -/
theorem bind (hx : Meets c x x' m goals Q)
    (hf : ∀ a d, c.Reaches m d → Q a d → Meets d (f a) (f' a) n more R) :
    Meets c (x >>= f) (x' >>= f') m (goals ++ more) R := by
  have met := hx.met
  have unfold_bind {y : Parse α} {f : α → Parse β} : (y >>= f) c = y c >>= fun r => f r.1 r.2 := rfl
  have same := hx.same
  cases h : x c with
  | error e =>
    rw [h] at met same
    refine ⟨by rw [unfold_bind, unfold_bind, h, same]; rfl, ?_⟩
    rw [unfold_bind, h]
    obtain ⟨d, cause, hd, hc, he, hl⟩ := met
    exact ⟨d, cause, hd, hc, he, fun behind => by rw [List.append_assoc, hl]⟩
  | ok r =>
    rw [h] at met same
    obtain ⟨hr, hl, hq⟩ := met
    have hf := hf r.1 r.2 hr hq
    refine ⟨by rw [unfold_bind, unfold_bind, h, same]; exact hf.same, ?_⟩
    rw [unfold_bind, h, ok_bind]
    have met := hf.met
    cases h' : f r.1 r.2 with
    | error e =>
      rw [h'] at met
      obtain ⟨d, cause, hd, hc, he, hl'⟩ := met
      exact ⟨d, cause, (hr.trans hd).mono (Nat.zero_le _), hc, he,
        fun behind => by rw [List.append_assoc, hl, hl']⟩
    | ok r' =>
      rw [h'] at met
      exact ⟨(hr.trans met.1).mono (Nat.le_add_right m n),
        fun behind => by rw [List.append_assoc, hl, met.2.1], met.2.2⟩

/-- Something is made of what was read. -/
theorem map (hx : Meets c x x' n goals Q) {f : α → β} (hf : ∀ a d, Q a d → R (f a) d) :
    Meets c (x >>= fun a => Pure.pure (f a)) (x' >>= fun a => Pure.pure (f a)) n goals R := by
  have h := hx.bind fun a d _ hq => .pure (a := f a) (hf a d hq)
  rwa [List.append_nil] at h

theorem current {f f' : Token → Parse β} (h : Meets c (f c.current) (f' c.current) n goals R) :
    Meets c (Parse.current >>= f) (Parse.current >>= f') n goals R := ⟨h.same, h.met⟩

theorem kind {f f' : TokenKind → Parse β} (h : Meets c (f c.kind) (f' c.kind) n goals R) :
    Meets c (Parse.kind >>= f) (Parse.kind >>= f') n goals R := ⟨h.same, h.met⟩

theorem spanFrom {start : Position} {f f' : Span → Parse β}
    (h : Meets c (f (c.spanFrom start)) (f' (c.spanFrom start)) n goals R) :
    Meets c (Parse.spanFrom start >>= f) (Parse.spanFrom start >>= f') n goals R := ⟨h.same, h.met⟩

/-- Something is made of what was read, with the span from `start` on. -/
theorem spanned {start : Position} {f : Span → β} (h : R (f (c.spanFrom start)) c) :
    Meets c (Parse.spanFrom start >>= fun s => Pure.pure (f s))
      (Parse.spanFrom start >>= fun s => Pure.pure (f s)) 0 [] R :=
  ⟨rfl, .refl c, fun _ => rfl, h⟩

/-- A goal for which nothing is read here. -/
theorem skip (ha : g.answer c.kind = .skip) (h : Meets c x x' n goals Q) :
    Meets c x x' n (g :: goals) Q := by
  obtain ⟨ks, hk⟩ := c.exists_kinds
  refine h.congr fun behind => ?_
  rw [hk]
  exact Goal.leftover_skip ha

/-- A goal that starts as another does. -/
theorem start {start : Option (List Goal)} (ha : a.answer c.kind = .ofStart (start.map (· ++ more)))
    (hb : b.answer c.kind = .ofStart start) (h : Meets c x x' n (b :: (more ++ goals)) Q) :
    Meets c x x' n (a :: goals) Q := by
  obtain ⟨ks, hk⟩ := c.exists_kinds
  refine h.congr fun behind => ?_
  rw [hk]
  simpa using Goal.leftover_start ha hb

/-- A goal that starts with a token of one kind only. -/
theorem startWith (k : TokenKind) (ha : a.answer c.kind =
    if c.kind = k then .take more else .refuse)
    (h : Meets c x x' n (.exactly k :: (more ++ goals)) Q) : Meets c x x' n (a :: goals) Q := by
  have hb : (Goal.exactly k).answer c.kind = .ofStart (if c.kind = k then some [] else none) := by
    rw [Goal.answer]
    split <;> rfl
  have ha : a.answer c.kind =
      .ofStart ((if c.kind = k then some [] else none : Option (List Goal)).map (· ++ more)) := by
    rw [ha]
    split <;> rfl
  exact start ha hb h

/-- The current token is read for a goal. -/
theorem next (hk : c.kind ≠ .eof) (ha : g.answer c.kind = .take more)
    (h : Meets c.next x x' n (more ++ goals) Q) : Met c 1 (g :: goals) Q (x c.next) := by
  have hl (behind : List Goal) :
      leftover (g :: goals ++ behind) c.kinds =
        leftover (more ++ goals ++ behind) c.next.kinds := by
    rw [Cursor.kinds_next hk, List.cons_append, Goal.leftover_take ha, List.append_assoc]
  have reach := Cursor.Reaches.next hk
  have met := h.met
  cases hx : x c.next with
  | ok r =>
    rw [hx] at met
    exact ⟨(reach.trans met.1).mono (Nat.le_add_right 1 n),
      fun behind => (hl behind).trans (met.2.1 behind), met.2.2⟩
  | error e =>
    rw [hx] at met
    obtain ⟨d, cause, hd, hc, he, hl'⟩ := met
    exact ⟨d, cause, (reach.trans hd).mono (Nat.zero_le _), hc, he,
      fun behind => (hl behind).trans (hl' behind)⟩

theorem advance {f f' : Token → Parse β} (hk : c.kind ≠ .eof) (ha : g.answer c.kind = .take more)
    (h : Meets c.next (f c.current) (f' c.current) n (more ++ goals) R) :
    Meets c (Parse.advance >>= f) (Parse.advance >>= f') 1 (g :: goals) R :=
  ⟨h.same, next hk ha h⟩

/-- As `advance`, where the kind of the current token is known. -/
theorem advanceOf {f f' : Token → Parse β} (hc : c.kind = k) (hk : k ≠ .eof)
    (ha : g.answer k = .take more)
    (h : c.kind ≠ .eof → c.Reaches 1 c.next →
      Meets c.next (f c.current) (f' c.current) n (more ++ goals) R) :
    Meets c (Parse.advance >>= f) (Parse.advance >>= f') 1 (g :: goals) R := by
  subst hc
  exact advance hk ha (h hk (.next hk))

/-- The current token is refused. -/
theorem stuck {cause : Cause} (hc : Refuses c cause) (ha : g.answer c.kind = .refuse) :
    Met c n (g :: goals) Q (.error (.error (c.refuse cause))) := by
  obtain ⟨ks, hk⟩ := c.exists_kinds
  refine ⟨c, cause, .refl c, hc, rfl, fun behind => ?_⟩
  rw [hk]
  exact Goal.leftover_refuse ha

theorem refuse (ha : g.answer c.kind = .refuse) :
    Meets c Parse.refuse Parse.refuse n (g :: goals) Q := ⟨rfl, stuck (.inl rfl) ha⟩

theorem refuseFor {message : String} (ha : g.answer c.kind = .refuse) :
    Meets c (Parse.refuseFor message) (Parse.refuseFor message) n (g :: goals) Q :=
  ⟨rfl, stuck (.inr ⟨message, rfl⟩) ha⟩

/-- A token that is asked for is a goal of its own. -/
theorem expectOr {cause : Cursor → Cause} (hk : k ≠ .eof) (hc : Refuses c (cause c))
    {f f' : Token → Parse β} (h : c.kind = k → c.kind ≠ .eof → c.Reaches 1 c.next →
      Meets c.next (f c.current) (f' c.current) n goals R) :
    Meets c ((fun c => Failure.ofError (c.expectOr k (cause c))) >>= f)
      ((fun c => Failure.ofError (c.expectOr k (cause c))) >>= f') 1 (.exactly k :: goals) R := by
  have unfold_expect {f : Token → Parse β} :
      ((fun c => Failure.ofError (c.expectOr k (cause c))) >>= f : Parse β) c =
        if c.kind = k then f c.current c.next else .error (.error (c.refuse (cause c))) := by
    show Failure.ofError (c.expectOr k (cause c)) >>= (fun r => f r.1 r.2) = _
    unfold Cursor.expectOr
    split <;> rfl
  by_cases hck : c.kind = k
  · have he : c.kind ≠ .eof := hck ▸ hk
    have rest := h hck he (.next he)
    refine ⟨by rw [unfold_expect, unfold_expect, if_pos hck, if_pos hck, rest.same], ?_⟩
    rw [unfold_expect, if_pos hck]
    have answer : (Goal.exactly k).answer c.kind = .take [] := if_pos hck
    exact rest.next he answer
  · refine ⟨by rw [unfold_expect, unfold_expect, if_neg hck, if_neg hck], ?_⟩
    rw [unfold_expect, if_neg hck]
    exact stuck hc (if_neg hck)

theorem expect (k : TokenKind) (hk : k ≠ .eof) {f f' : Token → Parse β}
    (h : c.kind = k → c.kind ≠ .eof → c.Reaches 1 c.next →
      Meets c.next (f c.current) (f' c.current) n goals R) :
    Meets c (Parse.expect k >>= f) (Parse.expect k >>= f') 1 (.exactly k :: goals) R :=
  expectOr hk (.inl rfl) h

theorem expectFor (k : TokenKind) (hk : k ≠ .eof) {message : String} {f f' : Token → Parse β}
    (h : c.kind = k → c.kind ≠ .eof → c.Reaches 1 c.next →
      Meets c.next (f c.current) (f' c.current) n goals R) :
    Meets c (Parse.expectFor k message >>= f) (Parse.expectFor k message >>= f') 1
      (.exactly k :: goals) R :=
  expectOr hk (.inr ⟨message, rfl⟩) h

/-- A token that may be read or not, and what comes after it in both cases. -/
theorem accept {y y' z z' : Parse β} (hk : k ≠ .eof)
    (hy : c.kind = k → c.kind ≠ .eof →
      g.answer k = .take more ∧ Meets c.next y y' m (more ++ goals) R)
    (hz : c.kind ≠ k → Meets c z z' n (g :: goals) R) :
    Meets c (Parse.accept k >>= fun b => if b = true then y else z)
      (Parse.accept k >>= fun b => if b = true then y' else z') 0 (g :: goals) R := by
  have unfold_accept {y z : Parse β} : (Parse.accept k >>= fun b => if b = true then y else z) c =
      if c.kind = k then y c.next else z c := by
    show (if (c.accept k).1 = true then y else z) (c.accept k).2 = _
    unfold Cursor.accept
    split <;> rfl
  by_cases h : c.kind = k
  · obtain ⟨ha, hy⟩ := hy h (h ▸ hk)
    refine ⟨by rw [unfold_accept, unfold_accept, if_pos h, if_pos h, hy.same], ?_⟩
    rw [unfold_accept, if_pos h]
    exact (next (h ▸ hk) (h ▸ ha) hy).mono (Nat.zero_le 1)
  · refine ⟨by rw [unfold_accept, unfold_accept, if_neg h, if_neg h, (hz h).same], ?_⟩
    rw [unfold_accept, if_neg h]
    exact (hz h).met.mono (Nat.zero_le n)

/-- A token that may be read or not, and nothing more. -/
theorem acceptOnly {tokens : List Token} (k : TokenKind) (hk : k ≠ .eof)
    (ha : g.answer c.kind = .ifKind c.kind k []) :
    Meets c (Parse.accept k) (Parse.accept k) 0 [g] fun _ d => c.Reads tokens d [] := by
  refine ⟨rfl, ?_⟩
  show Met c 0 [g] _ (.ok (c.accept k))
  unfold Cursor.accept
  by_cases h : c.kind = k
  · rw [if_pos h]
    have read : Meets c.next (Pure.pure true) (Pure.pure true) 0 [] fun _ d =>
      c.Reads tokens d [] :=
      .pure (.token (h ▸ hk))
    exact (read.next (h ▸ hk) (ha.trans (if_pos h))).mono (Nat.zero_le 1)
  · rw [if_neg h]
    have stay : Meets c (Pure.pure false) (Pure.pure false) 0 [] fun _ d => c.Reads tokens d [] :=
      .pure .refl
    exact (stay.skip (ha.trans (if_neg h))).met

/-- A token that may be read or not, for a goal that is met either way. -/
theorem acceptIf {y y' z z' : Parse β} (hk : k ≠ .eof)
    (ha : g.answer c.kind = .ifKind c.kind k more)
    (hy : c.kind ≠ .eof → Meets c.next y y' m (more ++ goals) R) (hz : Meets c z z' n goals R) :
    Meets c (Parse.accept k >>= fun b => if b = true then y else z)
      (Parse.accept k >>= fun b => if b = true then y' else z') 0 (g :: goals) R := by
  refine accept (n := n) hk (fun h he => ⟨?_, hy he⟩) fun h => ?_
  · rw [h] at ha
    exact ha.trans (if_pos rfl)
  · exact skip (ha.trans (if_neg h)) hz

end Meets

/-! ### Every reader -/

variable {j : Nat} (tokens : List Token)

/-- By induction on the depth, as all that follow. -/
theorem meets_type : ∀ (n : Nat) {c : Cursor}, c.Bounded 1 n →
    Meets c (type n) (type (j + n)) 1 [.type] fun t d => c.Reads tokens d [t.extent]
  | 0, _, hb => absurd hb (by simp [Cursor.Bounded])
  | n + 1, c, hb => by
    rw [← Nat.add_assoc, type, type]
    refine .current ?_
    have rest (h : c.Reaches 1 c.next) := meets_type n (hb.pred.reach h (by decide))
    split
    · next hk => exact .advanceOf hk nofun rfl fun he _ => .pure (.leaf he)
    · next hk =>
      exact .advanceOf hk nofun rfl fun he h => (rest h).bind fun _ _ _ ht => .spanned (.lead he ht)
    · next hk =>
      exact .advanceOf hk nofun rfl fun he h => (rest h).bind fun _ _ _ ht => .spanned (.lead he ht)
    · next h₁ h₂ h₃ =>
      refine .refuseFor ?_
      rw [Goal.answer] <;> assumption

/-! What the readers look at in a token is what the goals do. -/

theorem operandStart_of_token {t : Token} {e : Expr} (h : Expr.ofToken? t = some e) :
    Goal.operandStart t.kind = some [] := by
  unfold Expr.ofToken? at h
  split at h
  case h_6 => cases h
  all_goals next hk => rw [hk]; rfl

theorem operandStart_of_prefix {op : PrefixOp} (h : PrefixOp.ofKind? k = some op) :
    Goal.operandStart k = some (Goal.expression .unary) := by
  unfold PrefixOp.ofKind? at h
  split at h <;> first | rfl | cases h

theorem operandStart_eq_none {t : Token} (ht : Expr.ofToken? t = none)
    (hp : PrefixOp.ofKind? t.kind = none) (h₁ : t.kind ≠ .openParen) (h₂ : t.kind ≠ .openCurly)
    (h₃ : t.kind ≠ .kwIf) : Goal.operandStart t.kind = none := by
  unfold Expr.ofToken? at ht
  cases hk : t.kind <;> simp_all [PrefixOp.ofKind?, Goal.operandStart]

/-- A single token that is an expression. -/
theorem reads_ofToken {tokens : List Token} {e : Expr} (hk : c.kind ≠ .eof)
    (h : Expr.ofToken? c.current = some e) : c.Reads tokens c.next [e.extent] := by
  unfold Expr.ofToken? at h
  split at h <;> cases h <;> exact .leaf hk

/-- A statement that starts with a block, behind which a semicolon may stand. -/
theorem meets_blockStatement {tokens : List Token} {x x' : Parse Expr}
    (hk : c.kind = .kwIf ∨ c.kind = .openCurly)
    (h : Meets c x x' 1 [.operand] fun e d => c.Reads tokens d [e.extent]) :
    Meets c
      (do
        let value ← x
        let _ ← accept .semicolon
        return .expr (← spanFrom c.position) value : Parse Stmt)
      (do
        let value ← x'
        let _ ← accept .semicolon
        return .expr (← spanFrom c.position) value : Parse Stmt)
      1 [.statement] fun s d => c.Reads tokens d [s.extent] := by
  have start : Goal.statement.answer c.kind =
      .ofStart ((Goal.operandStart c.kind).map (· ++ [.maybeSemicolon])) := by
    rcases hk with hk | hk <;> rw [hk] <;> rfl
  exact .start (b := .operand) start rfl (h.bind fun _ _ _ hv =>
    (Meets.acceptOnly .semicolon nofun rfl).bind fun _ _ _ hs => .spanned (hv.trans hs).cover)

mutual

theorem meets_expr : ∀ (n : Nat) (power : Power) {c : Cursor}, c.Bounded 3 n →
    Meets c (expr n power) (expr (j + n) power) 1 (Goal.expression power)
      fun e d => c.Reads tokens d [e.extent]
  | 0, _, _, hb => absurd hb (by simp [Cursor.Bounded])
  | n + 1, power, c, hb => by
    rw [← Nat.add_assoc, expr, expr]
    exact (meets_prefixForm n hb.pred).bind fun left d hd hl =>
      meets_infixForms n power left hl (hb.pred.reach hd (by decide))

/-- A prefix form is an operand. -/
theorem meets_prefixForm : ∀ (n : Nat) {c : Cursor}, c.Bounded 2 n →
    Meets c (prefixForm n) (prefixForm (j + n)) 1 [.operand] fun e d => c.Reads tokens d [e.extent]
  | 0, _, hb => absurd hb (by simp [Cursor.Bounded])
  | n + 1, c, hb => by
    rw [← Nat.add_assoc, prefixForm_succ, prefixForm_succ]
    refine .current ?_
    split
    · next e he =>
      have start := operandStart_of_token he
      have hk : c.kind ≠ .eof := by
        intro hk
        rw [show c.current.kind = .eof from hk] at start
        cases start
      exact .advance hk (congrArg Answer.ofStart start) (.pure (reads_ofToken hk he))
    · next ht =>
      split
      · next op hp =>
        have start := operandStart_of_prefix hp
        have hk : c.kind ≠ .eof := by
          intro hk
          rw [show c.current.kind = .eof from hk] at start
          cases start
        exact .advance hk (congrArg Answer.ofStart start)
          ((meets_expr n .unary (hb.pred.reach (.next hk) (by decide))).bind fun _ _ _ ho =>
            .spanned (.lead hk ho))
      · next hp =>
        split
        · next hk =>
          exact .advanceOf hk nofun rfl fun he h =>
            (meets_expr n .default (hb.pred.reach h (by decide))).bind fun _ _ _ hi =>
              .expect .closeParen nofun fun _ hc _ => .pure ((hi.close hc).skip he)
        · next hk =>
          have hk : c.kind = .openCurly := hk
          have start : Goal.operand.answer c.kind =
              if c.kind = .openCurly then .take Goal.blockRest else .refuse := by rw [hk]; rfl
          exact .startWith .openCurly start
            ((meets_block n hb.pred).map fun b _ hb => hb.wrap b.span_extent.symm)
        · next hk =>
          have hk : c.kind = .kwIf := hk
          have start : Goal.operand.answer c.kind =
              if c.kind = .kwIf then .take Goal.conditionalRest else .refuse := by rw [hk]; rfl
          exact .startWith .kwIf start (meets_conditional n hk hb.pred)
        · next h₁ h₂ h₃ =>
          exact .refuse (congrArg Answer.ofStart (operandStart_eq_none ht hp h₁ h₂ h₃))

/-- What was read before starts at `c₀`. -/
theorem meets_infixForms : ∀ (n : Nat) (power : Power) (left : Expr) {c₀ c : Cursor},
    c₀.Reads tokens c [left.extent] → c.Bounded 1 n →
    Meets c (infixForms n power left) (infixForms (j + n) power left) 0 [.infixes power]
      fun e d => c₀.Reads tokens d [e.extent]
  | 0, _, _, _, _, _, hb => absurd hb (by simp [Cursor.Bounded])
  | n + 1, power, left, c₀, c, hl, hb => by
    rw [← Nat.add_assoc, infixForms_succ, infixForms_succ]
    refine .kind ?_
    split
    · next hk => exact .skip (by rw [Goal.answer, hk]) (.pure hl)
    · next form hk =>
      have he : c.kind ≠ .eof := by
        intro he
        rw [he] at hk
        cases hk
      by_cases ht : form.power.tighter power = true
      · rw [if_pos ht, if_pos ht]
        have answer : (Goal.infixes power).answer c.kind =
            .take (Goal.infixRest form ++ [.infixes power]) := by
          rw [Goal.answer, hk]
          exact if_pos ht
        have rest : c.next.Bounded 5 n := hb.pred.reach (.next he) (by decide)
        refine (Meets.advance (n := 0) he answer ?_).mono (Nat.zero_le 1)
        rw [List.append_nil]
        exact (meets_infixForm n form left (hl.close he) rest).bind fun extended d hd hx =>
          meets_infixForms n power extended hx (rest.reach hd (by decide))
      · rw [if_neg ht, if_neg ht]
        refine .skip ?_ (.pure hl)
        rw [Goal.answer, hk]
        exact if_neg ht

/-- What stands behind an operator extends the expression before it. -/
theorem meets_infixForm : ∀ (n : Nat) (form : InfixForm) (left : Expr) {c₀ c : Cursor},
    c₀.Reads tokens c [left.extent] → c.Bounded 5 n →
    Meets c (infixForm n form form.power left) (infixForm (j + n) form form.power left) 0
      (Goal.infixRest form) fun e d => c₀.Reads tokens d [e.extent]
  | 0, _, _, _, _, _, hb => absurd hb (by simp [Cursor.Bounded])
  | n + 1, form, left, c₀, c, hl, hb => by
    rw [← Nat.add_assoc]
    have operand (power : Power) := meets_expr n power (hb.pred.reach (.refl c) (by decide))
    have joined (e : Expr) (d : Cursor) (he : c.Reads tokens d [e.extent]) :
        c₀.Reads tokens d [.node (left.span.upTo e.span) [left.extent, e.extent]] :=
      (hl.trans he).join left.span_extent.symm e.span_extent.symm
    cases form with
    | assign => exact ((operand .comma).map joined).mono (Nat.zero_le 1)
    | logical op | binary op => exact ((operand _).map joined).mono (Nat.zero_le 1)
    | cast =>
      exact ((meets_type tokens n (hb.pred.reach (.refl c) (by decide))).map fun t _ ht =>
        (hl.trans ht).join left.span_extent.symm t.span_extent.symm).mono (Nat.zero_le 1)
    | call =>
      exact (meets_arguments n hb.pred).bind fun _ _ _ ha =>
        .expect .closeParen nofun fun _ he _ =>
          .spanned (((hl.trans ha).close he).extend left.span_extent.symm)

/-- Arguments go on behind each comma. -/
theorem meets_arguments : ∀ (n : Nat) {c : Cursor}, c.Bounded 4 n →
    Meets c (arguments n) (arguments (j + n)) 0 [.arguments]
      fun es d => c.Reads tokens d (Expr.extents es)
  | 0, _, hb => absurd hb (by simp [Cursor.Bounded])
  | n + 1, c, hb => by
    rw [← Nat.add_assoc, arguments, arguments]
    refine .kind ?_
    by_cases hk : c.kind = .closeParen
    · rw [if_pos hk, if_pos hk]
      exact .skip (if_pos hk) (.pure .refl)
    · rw [if_neg hk, if_neg hk]
      have start : Goal.arguments.answer c.kind =
          .ofStart ((Goal.operandStart c.kind).map (· ++ [.infixes .comma, .moreArguments])) :=
        if_neg hk
      refine .start (b := .operand) start rfl (Meets.mono ?_ (Nat.zero_le 1))
      exact (meets_expr n .comma hb.pred).bind fun first d hd hf =>
        .acceptIf nofun rfl (fun he => (meets_arguments n
          (hb.pred.reach (hd.trans (.next he)) (by decide))).map fun _ _ hr =>
            hf.trans (hr.skip he))
          (.pure hf)

theorem meets_block : ∀ (n : Nat) {c : Cursor}, c.Bounded 1 n →
    Meets c (block n) (block (j + n)) 1 Goal.block fun b d => c.Reads tokens d [b.extent]
  | 0, _, hb => absurd hb (by simp [Cursor.Bounded])
  | n + 1, c, hb => by
    rw [← Nat.add_assoc, block, block]
    exact .expect .openCurly nofun fun _ he hd =>
      (meets_statements n (hb.pred.reach hd (by decide))).bind fun _ _ _ hs =>
        .expect .closeCurly nofun fun _ hc _ => .spanned (.lead he (hs.close hc))

/-- Statements go on up to a closing brace. -/
theorem meets_statements : ∀ (n : Nat) {c : Cursor}, c.Bounded 5 n →
    Meets c (statements n) (statements (j + n)) 0 [.statements]
      fun ss d => c.Reads tokens d (Stmt.extents ss)
  | 0, _, hb => absurd hb (by simp [Cursor.Bounded])
  | n + 1, c, hb => by
    rw [← Nat.add_assoc, statements, statements]
    refine .kind ?_
    by_cases hk : c.kind = .closeCurly ∨ c.kind = .eof
    · rw [if_pos hk, if_pos hk]
      exact .skip (if_pos hk) (.pure .refl)
    · rw [if_neg hk, if_neg hk]
      have start : Goal.statements.answer c.kind =
          .ofStart ((Goal.statementStart c.kind).map (· ++ [.statements])) := if_neg hk
      refine .start (b := .statement) start rfl (Meets.mono ?_ (Nat.zero_le 1))
      exact (meets_stmt n hb.pred).bind fun _ d hd hf =>
        (meets_statements n (hb.pred.reach hd (by decide))).map fun _ _ hr => hf.trans hr

/-- A conditional may go on with an `else`. -/
theorem meets_conditional : ∀ (n : Nat) {c : Cursor}, c.kind = .kwIf → c.Bounded 1 n →
    Meets c (conditional n) (conditional (j + n)) 1 (.exactly .kwIf :: Goal.conditionalRest)
      fun e d => c.Reads tokens d [e.extent]
  | 0, _, _, hb => absurd hb (by simp [Cursor.Bounded])
  | n + 1, c, hk, hb => by
    rw [← Nat.add_assoc, conditional, conditional]
    refine .advanceOf (n := 1) hk nofun rfl fun he h => ?_
    have room : c.next.Bounded 3 n := hb.pred.reach h (by decide)
    refine (meets_expr n .default room).bind (n := 1) fun _ d hd hc => ?_
    have room : d.Bounded 3 n := room.reach hd (by decide)
    refine (meets_block n (room.reach (.refl d) (by decide))).bind (n := 0) fun _ d hd ht => ?_
    have room : d.Bounded 3 n := room.reach hd (by decide)
    refine .acceptIf (m := 1) nofun rfl (fun hd => ?_) (.spanned (.lead he (hc.trans ht)))
    have room : d.next.Bounded 1 n := room.reach (.next hd) (by decide)
    refine .kind ?_
    by_cases hk : d.next.kind = .kwIf
    · rw [if_pos hk, if_pos hk]
      have start : Goal.alternative.answer d.next.kind =
          if d.next.kind = .kwIf then .take Goal.conditionalRest else .refuse := by rw [hk]; rfl
      -- the block around the next conditional, and the statement in it, have its span
      exact .startWith .kwIf start ((meets_conditional n hk room).bind fun e _ _ hn =>
        .spanned (.lead he ((hc.trans ht).trans
          (((hn.wrap e.span_extent.symm).wrap rfl).skip hd))))
    · rw [if_neg hk, if_neg hk]
      exact .startWith .openCurly (Goal.answer_other rfl hk)
        ((meets_block n room).bind fun _ _ _ hb =>
          .spanned (.lead he ((hc.trans ht).trans (hb.skip hd))))

/-- A statement is told by its first token. -/
theorem meets_stmt : ∀ (n : Nat) {c : Cursor}, c.Bounded 4 n →
    Meets c (stmt n) (stmt (j + n)) 1 [.statement] fun s d => c.Reads tokens d [s.extent]
  | 0, _, hb => absurd hb (by simp [Cursor.Bounded])
  | n + 1, c, hb => by
    rw [← Nat.add_assoc, stmt, stmt]
    refine .current ?_
    split
    · next hk =>
      exact .advanceOf hk nofun rfl fun he h =>
        meets_definition n he (hb.pred.reach h (by decide))
    · next hk =>
      refine .advanceOf (n := 0) hk nofun rfl fun he h => .kind ?_
      by_cases hs : c.next.kind = .semicolon
      · rw [if_pos hs, if_pos hs]
        have start : Goal.returned.answer c.next.kind =
            if c.next.kind = .semicolon then .take [] else .refuse := by rw [hs]; rfl
        refine .startWith .semicolon start (Meets.mono ?_ (Nat.zero_le 1))
        exact .expect .semicolon nofun fun _ hs _ => .spanned (.lead he (.token hs))
      · rw [if_neg hs, if_neg hs]
        have start : Goal.returned.answer c.next.kind = .ofStart
            ((Goal.operandStart c.next.kind).map (· ++ [.infixes .default, .exactly .semicolon])) :=
          if_neg hs
        refine .start (b := .operand) start rfl (Meets.mono ?_ (Nat.zero_le 1))
        exact (meets_expr n .default (hb.pred.reach h (by decide))).bind fun _ _ _ hv =>
          .expect .semicolon nofun fun _ hs _ => .spanned (.lead he (hv.close hs))
    · next hk =>
      refine .advanceOf (n := 1) hk nofun rfl fun he h => ?_
      have room : c.next.Bounded 3 n := hb.pred.reach h (by decide)
      exact (meets_expr n .default room).bind fun _ d hd hc =>
        (meets_block n (room.reach hd (by decide))).bind fun _ _ _ hb =>
          .spanned (.lead he (hc.trans hb))
    · next hk =>
      exact meets_blockStatement (.inl hk) (meets_prefixForm n
        (hb.pred.reach (.refl c) (by decide)))
    · next hk =>
      exact meets_blockStatement (.inr hk) (meets_prefixForm n
        (hb.pred.reach (.refl c) (by decide)))
    · next h₁ h₂ h₃ h₄ h₅ =>
      have start : Goal.statement.answer c.kind =
          .ofStart ((Goal.operandStart c.kind).map (· ++ [.infixes .default, .statementEnd])) := by
        rw [Goal.answer, Goal.statementStart] <;> assumption
      refine .start (b := .operand) start rfl ?_
      refine (meets_expr n .default hb.pred).bind (n := 0) fun _ d hd hv => .kind ?_
      by_cases hk : d.kind = .closeCurly
      · rw [if_pos hk]
        exact .skip (by rw [hk]; rfl) (.spanned hv.cover)
      · rw [if_neg hk]
        refine .startWith .semicolon (Goal.answer_other rfl hk) (Meets.mono ?_ (Nat.zero_le 1))
        exact .expect .semicolon nofun fun _ hs _ => .spanned (hv.close hs).cover

/-- A definition has a type, a first value or both. -/
theorem meets_definition : ∀ (n : Nat) {c : Cursor}, c.kind ≠ .eof → c.next.Bounded 1 n →
    Meets c.next (definition n c.position) (definition (j + n) c.position) 1
      [.exactly .identifier, .definition] fun s d => c.Reads tokens d [s.extent]
  | 0, _, _, hb => absurd hb (by simp [Cursor.Bounded])
  | n + 1, c, hk, hb => by
    rw [← Nat.add_assoc, definition, definition]
    refine .expectFor (n := 0) .identifier nofun fun _ hi hd => .kind ?_
    generalize hd' : c.next.next = d at hd ⊢
    have name : c.next.Reads tokens d [] := hd' ▸ .token hi
    have room : d.Bounded 1 n := hb.pred.reach hd (by decide)
    by_cases hp : d.kind = .openParen
    · rw [if_pos hp, if_pos hp]
      exact .refuseFor (by rw [hp]; rfl)
    · rw [if_neg hp, if_neg hp]
      have colon : Goal.definition.answer .colon = .take [.type, .initializer] := rfl
      refine .accept (m := 1) (n := 0) nofun (fun _ h => ⟨colon, ?_⟩) fun hc => ?_
      · have room : d.next.Bounded 1 n := room.reach (.next h) (by decide)
        refine (meets_type tokens n room).bind (n := 0) fun _ d hd ht => ?_
        have typed := name.trans (ht.skip h)
        have equals : Goal.initializer.answer .assignment =
            .take (Goal.expression .default ++ [.exactly .semicolon]) := rfl
        refine .accept (m := 1) (n := 0) nofun (fun _ h => ⟨equals, ?_⟩) fun he => ?_
        · have room : d.next.Bounded 3 n := room.reach (hd.trans (.next h)) (by decide)
          exact (meets_expr n .default room).bind fun _ _ _ hv =>
            .expect .semicolon nofun fun _ hs _ =>
              .spanned (.lead hk ((typed.trans (hv.skip h)).close hs))
        · refine .startWith .semicolon (Goal.answer_other rfl he) (Meets.mono ?_ (Nat.zero_le 1))
          exact .expect .semicolon nofun fun _ hs _ => .spanned (.lead hk (typed.close hs))
      · have equals : Goal.definition.answer .assignment =
            .take (Goal.expression .default ++ [.exactly .semicolon]) := rfl
        refine .accept (m := 1) (n := 0) nofun (fun _ h => ⟨equals, ?_⟩) fun he => ?_
        · have room : d.next.Bounded 3 n := room.reach (.next h) (by decide)
          exact (meets_expr n .default room).bind fun _ _ _ hv =>
            .expect .semicolon nofun fun _ hs _ =>
              .spanned (.lead hk ((name.trans (hv.skip h)).close hs))
        · refine .refuseFor ?_
          rw [Goal.answer] <;> assumption

end

/-- Parameters go on behind each comma. -/
theorem meets_parameters : ∀ (n : Nat) {c : Cursor}, c.Bounded 1 n →
    Meets c (parameters n) (parameters (j + n)) 0 [.parameters]
      fun ps d => c.Reads tokens d (ps.map Parameter.extent)
  | 0, _, hb => absurd hb (by simp [Cursor.Bounded])
  | n + 1, c, hb => by
    rw [← Nat.add_assoc, parameters, parameters]
    refine .kind ?_
    by_cases hk : c.kind = .closeParen
    · rw [if_pos hk, if_pos hk]
      exact .skip (by rw [hk]; rfl) (.pure .refl)
    · rw [if_neg hk, if_neg hk]
      refine .startWith .identifier (Goal.answer_other rfl hk) (Meets.mono ?_ (Nat.zero_le 1))
      refine .expect (n := 1) .identifier nofun fun _ hi hd => ?_
      refine .expect (n := 1) .colon nofun fun _ hc hd' => ?_
      have room : c.next.next.Bounded 1 n := hb.pred.reach (hd.trans hd') (by decide)
      refine (meets_type tokens n room).bind (n := 0) fun t e he ht => ?_
      have first : c.Reads tokens e [.node (e.spanFrom c.position) [t.extent]] :=
        .lead hi (ht.skip hc)
      refine .spanFrom ?_
      exact .acceptIf nofun rfl (fun h => (meets_parameters n
        (room.reach (he.trans (.next h)) (by decide))).map fun _ _ hr => first.trans (hr.skip h))
        (.pure first)

/-- The name is that of one of the tokens. -/
def Names (tokens : List Token) (name : String) : Prop :=
  ∃ t ∈ tokens, t.kind = .identifier ∧ t.value = name

/-- The name of a function, its parameters and its result. -/
theorem meets_functionHead (n : Nat) (hb : c.Bounded 1 n) :
    Meets c (functionHead n) (functionHead (j + n)) 1 (.exactly .kwDef :: Goal.headRest)
      fun r d => c.kind ≠ .eof ∧ c.next.Reads tokens d (headExtents r.2.1 r.2.2) ∧
        (c.next.Laid tokens → Names tokens r.1) := by
  unfold functionHead
  refine .expect (n := 1) .kwDef nofun fun _ hc hd => ?_
  refine .expectFor (n := 1) .identifier nofun fun hi hi' hd₂ => ?_
  refine .expect (n := 0) .openParen nofun fun _ ho hd₃ => ?_
  generalize hd' : c.next.next.next = d₃ at hd₃ ⊢
  have opened : c.next.Reads tokens d₃ [] := hd' ▸ (Cursor.Reads.token hi').close ho
  have name (h : c.next.Laid tokens) : Names tokens c.next.current.value :=
    ⟨c.next.current, h.current, hi, rfl⟩
  have room : d₃.Bounded 1 n := hb.reach ((hd.trans hd₂).trans hd₃) (by decide)
  refine (meets_parameters tokens n room).bind (n := 1) fun ps d₄ hd₄ hps => ?_
  refine .expect (n := 0) .closeParen nofun fun _ hp hd₅ => ?_
  have parameters := (opened.trans hps).close hp
  have room : d₄.next.Bounded 1 n := room.reach (hd₄.trans hd₅) (by decide)
  refine .acceptIf nofun rfl (fun h => (meets_type tokens n
    (room.reach (.next h) (by decide))).map fun _ _ ht => ⟨hc, parameters.trans (ht.skip h), name⟩)
    (.pure ⟨hc, ?_, name⟩)
  unfold headExtents
  rwa [Option.toList_none, List.map_nil, List.append_nil]

/-- Members go on behind each semicolon or comma. -/
theorem meets_members : ∀ (n : Nat) {c : Cursor}, c.Bounded 1 n →
    Meets c (members n) (members (j + n)) 0 [.members]
      fun ms d => c.Reads tokens d (ms.map (·.2.extent))
  | 0, _, hb => absurd hb (by simp [Cursor.Bounded])
  | n + 1, c, hb => by
    rw [← Nat.add_assoc, members, members]
    refine .kind ?_
    by_cases hk : c.kind = .closeCurly
    · rw [if_pos hk, if_pos hk]
      exact .skip (by rw [hk]; rfl) (.pure .refl)
    · rw [if_neg hk, if_neg hk]
      refine .startWith .identifier (Goal.answer_other rfl hk) (Meets.mono ?_ (Nat.zero_le 1))
      refine .expect (n := 1) .identifier nofun fun _ hi hd => ?_
      refine .expect (n := 1) .colon nofun fun _ hc hd' => ?_
      have room : c.next.next.Bounded 1 n := hb.pred.reach (hd.trans hd') (by decide)
      refine (meets_type tokens n room).bind (n := 0) fun t e he ht => ?_
      have first : c.Reads tokens e [t.extent] := (ht.skip hc).skip hi
      have more {name : String} (h : e.kind ≠ .eof) :
          Meets e.next (members n >>= fun rest => Pure.pure ((name, t) :: rest))
            (members (j + n) >>= fun rest => Pure.pure ((name, t) :: rest)) 0 [.members]
            fun ms d => c.Reads tokens d (ms.map (·.2.extent)) :=
        (meets_members n (room.reach (he.trans (.next h)) (by decide))).map fun _ _ hr =>
          first.trans (hr.skip h)
      have semicolon : Goal.moreMembers.answer .semicolon = .take [.members] := rfl
      have comma : Goal.moreMembers.answer .comma = .take [.members] := rfl
      refine .accept (n := 0) nofun (fun _ h => ⟨semicolon, more h⟩) fun h₁ => ?_
      refine .accept (n := 0) nofun (fun _ h => ⟨comma, more h⟩) fun h₂ => ?_
      refine .skip ?_ (.pure first)
      rw [Goal.answer] <;> assumption

/-- An item is told by its first token. -/
theorem meets_item (n : Nat) (hb : c.Bounded 1 n) :
    Meets c (item n) (item (j + n)) 1 [.item] fun i d =>
      c.Reads tokens d [i.extent] ∧ (c.Laid tokens → Names tokens i.name) := by
  unfold item
  refine .current ?_
  split
  · next hk =>
    have hk : c.kind = .kwDef := hk
    have start : Goal.item.answer c.kind =
        if c.kind = .kwDef then .take (Goal.headRest ++ Goal.block) else .refuse := by rw [hk]; rfl
    refine .startWith .kwDef start ((meets_functionHead tokens n hb).bind (n := 1) ?_)
    rintro ⟨name, ps, r⟩ d hd ⟨he, head, named⟩
    exact (meets_block tokens n (hb.reach hd (by decide))).bind fun _ _ _ body =>
      .spanned ⟨.lead he (head.trans body), fun h => named (h.next he).1⟩
  · next hk =>
    refine .advanceOf (n := 1) hk nofun rfl fun he h => ?_
    refine .expectFor (n := 1) .string nofun fun _ hs hd => ?_
    refine (meets_functionHead tokens n (hb.reach (h.trans hd) (by decide))).bind (n := 1) ?_
    rintro ⟨name, ps, r⟩ d - ⟨hd, head, named⟩
    exact .expect .semicolon nofun fun _ hc _ => .spanned
      ⟨.lead he (((Cursor.Reads.leaf hs).trans (head.skip hd)).close hc),
        fun h => named (((h.next he).1.next hs).1.next hd).1⟩
  · next hk =>
    refine .advanceOf (n := 1) hk nofun rfl fun he h => ?_
    refine .expect (n := 1) .identifier nofun fun hi hi' hd => ?_
    refine .expect (n := 0) .openCurly nofun fun _ ho hd₂ => ?_
    exact (meets_members tokens n (hb.reach ((h.trans hd).trans hd₂) (by decide))).bind
      fun _ _ _ hm =>
      .expect .closeCurly nofun fun _ hc _ => .spanned
        ⟨.lead he (((hm.skip ho).skip hi').close hc),
          fun h => ⟨c.next.current, (h.next he).1.current, hi, rfl⟩⟩
  · next h₁ h₂ h₃ =>
    refine .refuseFor ?_
    rw [Goal.answer, Goal.itemStart] <;> first | rfl | assumption

/-- Items go on up to the end. -/
theorem meets_items : ∀ (n : Nat) {c : Cursor}, c.Bounded 2 n →
    Meets c (items n) (items (j + n)) 0 [.items] fun is d =>
      c.Reads tokens d (is.map Item.extent) ∧ (c.Laid tokens → ∀ i ∈ is, Names tokens i.name)
  | 0, _, hb => absurd hb (by simp [Cursor.Bounded])
  | n + 1, c, hb => by
    rw [← Nat.add_assoc, items, items]
    refine .kind ?_
    by_cases hk : c.kind = .eof
    · rw [if_pos hk, if_pos hk]
      exact .skip (if_pos hk) (.pure ⟨.refl, by simp⟩)
    · rw [if_neg hk, if_neg hk]
      have start : Goal.items.answer c.kind =
          .ofStart ((Goal.itemStart c.kind).map (· ++ [.items])) := if_neg hk
      refine .start (b := .item) start rfl (Meets.mono ?_ (Nat.zero_le 1))
      exact (meets_item tokens n hb.pred).bind fun _ d hd hf =>
        (meets_items n (hb.pred.reach hd (by decide))).map fun _ _ hr =>
          ⟨hf.1.trans hr.1, fun h => List.forall_mem_cons.mpr ⟨hf.2 h, hr.2 (hf.1 h).laid⟩⟩

end Parse

/-! ### Programs -/

/-- The tokens of a program: its end is the last of them and no other. -/
def IsStream (tokens : List Token) : Prop :=
  ∃ body last, tokens = body ++ [last] ∧ last.kind = .eof ∧ ∀ t ∈ body, t.kind ≠ .eof

theorem Cursor.start_append {file : String} {body : List Token} {last : Token}
    (hl : last.kind = .eof)
    (hb : ∀ t ∈ body, t.kind ≠ .eof) :
    Cursor.start file (body ++ [last]) = ⟨body, last.span.start, ⟨0, file⟩, none⟩ := by
  have missed : body.find? (·.kind = .eof) = none := List.find?_eq_none.mpr (by simpa using hb)
  simpa [Cursor.start, List.filter_append, List.find?_append, missed, hl] using hb

section Stream

open Goal (leftover)

variable {file : String} {tokens : List Token}

theorem IsStream.kinds_start (h : IsStream tokens) :
    (Cursor.start file tokens).kinds = tokens.map (·.kind) := by
  obtain ⟨body, last, rfl, hl, hb⟩ := h
  rw [Cursor.start_append hl hb]
  simp [Cursor.kinds, hl]

theorem Cursor.bounded_start (file : String) (tokens : List Token) :
    (Cursor.start file tokens).Bounded 2 (Cursor.start file tokens).depth := by
  unfold Cursor.Bounded Cursor.depth depthPerToken
  omega

/-- What is refused leaves over the token that is refused and all behind it. -/
theorem IsStream.leftover_of_error (h : IsStream tokens) {f : Failure}
    (hf : parse file tokens = .error f) : ∃ d cause, (Cursor.start file tokens).Reaches 0 d ∧
    Parse.Refuses d cause ∧ f = .error (d.refuse cause) ∧
      leftover [.items] (tokens.map (·.kind)) = d.kinds := by
  have met := (Parse.meets_items (j := 0) tokens _ (Cursor.bounded_start file tokens)).met
  rcases bind_eq_error.mp hf with hi | ⟨r, -, hr⟩
  · rw [hi] at met
    obtain ⟨d, cause, hd, hc, he, hl⟩ := met
    exact ⟨d, cause, hd, hc, he, by rw [← h.kinds_start, ← List.append_nil [_], hl]⟩
  · cases hr

/-- The parts of a tree that was read, and the names in it. -/
theorem parse_reads {m : ModuleSyntax} (hm : parse file tokens = .ok m) :
    ∃ d, (Cursor.start file tokens).Reads tokens d (m.items.map Item.extent) ∧
      ((Cursor.start file tokens).Laid tokens → ∀ i ∈ m.items, Parse.Names tokens i.name) := by
  obtain ⟨⟨found, d⟩, hi, hm⟩ := bind_eq_ok.mp hm
  cases hm
  have met := (Parse.meets_items (j := 0) tokens _ (Cursor.bounded_start file tokens)).met
  rw [hi] at met
  exact ⟨d, met.2.2⟩

/-- The token at a place that was reached, among all tokens. -/
theorem Cursor.Reaches.exists_token {body : List Token} {last : Token} {d : Cursor}
    (hl : last.kind = .eof) (hb : ∀ t ∈ body, t.kind ≠ .eof)
    (h : (Cursor.start file (body ++ [last])).Reaches 0 d) :
    ∃ read t rest, body ++ [last] = read ++ t :: rest ∧ (∀ s ∈ read, s.kind ≠ .eof) ∧
      t.kind = d.kind ∧ t.span.start = d.position ∧ d.kinds = t.kind :: rest.map (·.kind) := by
  rw [Cursor.start_append hl hb] at h
  obtain ⟨read, hr⟩ : ∃ read, read ++ d.ahead = body := h.ahead
  have before : ∀ s ∈ read, s.kind ≠ .eof := fun s hs => hb s (by rw [← hr]; simp [hs])
  have finish := h.finish
  unfold Cursor.kinds Cursor.position Cursor.kind Cursor.current
  cases ha : d.ahead with
  | nil =>
    rw [ha, List.append_nil] at hr
    exact ⟨read, last, [], by rw [hr], before, hl, finish.symm, by rw [hl]; rfl⟩
  | cons t ts =>
    rw [ha] at hr
    exact ⟨read, t, ts ++ [last], by rw [← hr]; simp, before, rfl, rfl, by simp [hl]⟩

/-- At the end of a program it is the end that is unexpected, and nowhere else. -/
theorem Parse.Refuses.unexpectedEof {d : Cursor} {cause : Cause} (h : Refuses d cause) :
    (d.refuse cause).cause = .unexpectedEof ↔ d.kind = .eof := by
  have hc : cause ≠ .unexpectedEof := by
    rcases h with rfl | ⟨message, rfl⟩ <;> exact nofun
  by_cases hk : d.kind = .eof <;> simp [Cursor.refuse, hk, hc]

end Stream

end Gauge
