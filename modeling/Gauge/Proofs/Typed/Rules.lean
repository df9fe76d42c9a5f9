import Gauge.Proofs.Typed.Build

/-!
# Proofs — the rules of checking

Checking written as rules: `Expr.Yields s w x e p b q` says that the expression `e`, of which `x` is
expected, becomes `b` in the scope `s` under the limit `w`, while the progress goes from `p` to `q`.
There is one rule for each way to accept an expression or a statement.  What is asked at a single
node is left to the steps of `Typed`.

What checking gives follows from the rules (`Expr.natural_yields`, `Block.natural_yields`,
`Stmt.check_yields`), so what holds of the trees that are accepted is proved by induction on them.
-/

namespace Gauge

open Check

/-- The progress that a statement starts from. -/
def Progress.fresh (p : Progress) : Progress := { p with spent := .zero }

/-- The sign of an operator on one operand. -/
def UnaryOp.sign : UnaryOp → PrefixOp
  | .negate => .negate
  | .not => .not

mutual

/-- An expression with the type that its parts give it. -/
inductive Expr.Yields : Scope → Weight → Expected → Expr → Progress → Typed → Progress → Prop
  | literal {s w x span l p b q} (h : (Literal.typed s span l).Gives p b q) :
      Expr.Yields s w x (.literal span l) p b q
  | identifier {s w x span name p b q} (h : (Typed.ofName s span name).Gives p b q) :
      Expr.Yields s w x (.identifier span name) p b q
  | unary {s w x span e p a m b q} {o : UnaryOp} (he : Expr.Yields s w .anything e p a m)
      (h : (Typed.unary s w x span o a).Gives m b q) :
      Expr.Yields s w x (.prefixed span o.sign e) p b q
  | addressOf {s w x span e p a m b q} (he : Expr.Yields s w .anything e p a m)
      (h : (Typed.addressOf span a).Gives m b q) :
      Expr.Yields s w x (.prefixed span .addressOf e) p b q
  | dereference {s w x span e p a m b q} (he : Expr.Yields s w .anything e p a m)
      (h : (Typed.dereference s w span a).Gives m b q) :
      Expr.Yields s w x (.prefixed span .dereference e) p b q
  | binary {s w x span op l r p a m b m' c q} (hl : Expr.Yields s w .anything l p a m)
      (hr : Expr.Yields s w .anything r m b m')
      (h : (Typed.binary s w x span op a b).Gives m' c q) :
      Expr.Yields s w x (.binary span op l r) p c q
  | logical {s w x span op l r p a m₁ a' m₂ b m₃ b' q}
      (hl : Expr.Yields s w (.required Builtin.bool) l p a m₁)
      (hl' : (Typed.meet s w (.required Builtin.bool) a).Gives m₁ a' m₂)
      (hr : Expr.Yields s w (.required Builtin.bool) r m₂ b m₃)
      (hr' : (Typed.meet s w (.required Builtin.bool) b).Gives m₃ b' q) :
      Expr.Yields s w x (.logical span op l r) p (Typed.logical span op a' b') q
  | assign {s w x span l r p m₁ b m₂ b' q} {a : Typed} (hl : Expr.Yields s w .anything l p a m₁)
      (ha : a.type.isReference = true) (hm : a.type.isMutable = true)
      (hr : Expr.Yields s w (.required a.type.bare) r m₁ b m₂)
      (hr' : (Typed.meet s w (.required a.type.bare) b).Gives m₂ b' q) :
      Expr.Yields s w x (.assign span l r) p (Typed.assign span a b') q
  | call {s w x span span' name es ids p as m b q}
      (hn : s.lookupSymbol name = some (.functions ids)) (hes : Expr.YieldsAll s w es p as m)
      (h : (Typed.call s w x span name ids as).Gives m b q) :
      Expr.Yields s w x (.call span (.identifier span' name) es) p b q
  | conditional {s w x span c t p a m₁ a' m₂ b q}
      (hc : Expr.Yields s w (.required Builtin.bool) c p a m₁)
      (hc' : (Typed.meet s w (.required Builtin.bool) a).Gives m₁ a' m₂)
      (ht : Block.Yields s w (.required Builtin.void) t m₂ b q) :
      Expr.Yields s w x (.conditional span c t none) p
        (.plain (.conditional a' b none) Builtin.void .void span) q
  | choice {s w x span c t e p a m₁ a' m₂ b m₃ b' m₄ m₅ d m₆ d' q} {u : Typed} {range : Range}
      (hc : Expr.Yields s w (.required Builtin.bool) c p a m₁)
      (hc' : (Typed.meet s w (.required Builtin.bool) a).Gives m₁ a' m₂)
      (ht : Block.Yields s w x t m₂ b m₃) (ht' : (Typed.meet s w x b).Gives m₃ b' m₄)
      (hd : (Typed.decay s w b').Gives m₄ u m₅)
      (he : Block.Yields s w (.required u.type) e m₅ d m₆)
      (he' : (Typed.meet s w (.required u.type) d).Gives m₆ d' q)
      (hr : (Typed.armsRange s a' u d').outcome = .ok range) :
      Expr.Yields s w x (.conditional span c t (some e)) p
        (.plain (.conditional a' u (some d')) u.type range span) q
  | block {s w x b p e q} (h : Block.Yields s w x b p e q) : Expr.Yields s w x (.block b) p e q
  | cast {s w x span e y t p a m q} {a' : Typed} (ht : s.resolveType y = .ok t)
      (he : Expr.Yields s w .anything e p a m) (hc : Typed.Converted s t true true a a')
      (hq : q.slots = m.slots) :
      Expr.Yields s w x (.cast span e y) p (.plain (.cast a') a'.type a'.range span) q

/-- The arguments of a call. -/
inductive Expr.YieldsAll : Scope → Weight → List Expr → Progress → List Typed → Progress → Prop
  | nil {s w p} : Expr.YieldsAll s w [] p [] p
  | cons {s w e es p a m as q} (h : Expr.Yields s w .anything e p a m)
      (hs : Expr.YieldsAll s w es m as q) : Expr.YieldsAll s w (e :: es) p (a :: as) q

/-- A block in a scope of its own. -/
inductive Block.Yields : Scope → Weight → Expected → Block → Progress → Typed → Progress → Prop
  | mk {s w x span ss p ts r q} (h : Stmt.YieldsAll s.push w x ss p ts r q) :
      Block.Yields s w x (.mk span ss) p (Typed.block s x span ts r) q

/-- The statements of a block.  An expression at the end gives the value, where one is wanted, and
anything else is checked as a statement. -/
inductive Stmt.YieldsAll : Scope → Weight → Expected → List Stmt → Progress → List TypedStmt →
    Option Typed → Progress → Prop
  | nil {s w x p} : Stmt.YieldsAll s w x [] p [] none p
  | last {s w x span e p a m b q} (hx : x.wantsValue = true) (he : Expr.Yields s w x e p a m)
      (h : (Typed.meet s w x a).Gives m b q) : Stmt.YieldsAll s w x [.expr span e] p [] (some b) q
  | cons {s w x st ss p t s' m ts r q}
      (hx : x.wantsValue = true → ss = [] → ∀ span e, st ≠ .expr span e)
      (h : Stmt.Yields s st p t s' m) (hs : Stmt.YieldsAll s' w x ss m ts r q) :
      Stmt.YieldsAll s w x (st :: ss) p (t :: ts) r q

/-- A statement, and the scope behind it. -/
inductive Stmt.Yields : Scope → Stmt → Progress → TypedStmt → Scope → Progress → Prop
  | expr {s span e p b q}
      (h : Expr.Yields s s.expressionLimit (.required Builtin.void) e p.fresh b q) :
      Stmt.Yields s (.expr span e) p (.expr b) s ⟨p.spent, q.slots⟩
  | declare {s span name y t p s'} (ht : s.resolveType y = .ok t) (hv : t.isVoid = false)
      (ha : s.addVariable ⟨name, t, TypedStmt.definedRange s t none, p.slots⟩ span.start = .ok s') :
      Stmt.Yields s (.define span name (some y) none) p (.define p.slots name t none) s'
        ⟨p.spent, p.slots + 1⟩
  | define {s span name y t e p a m₁ b m₂ c m₃ s'} (ht : s.resolveType y = .ok t)
      (he : Expr.Yields s s.expressionLimit (.required t.bare) e p.fresh a m₁)
      (hm : (Typed.meet s s.expressionLimit (.required t.bare) a).Gives m₁ b m₂)
      (hval : (Typed.asValue s s.expressionLimit b).Gives m₂ c m₃) (hv : t.isVoid = false)
      (ha : s.addVariable ⟨name, t, TypedStmt.definedRange s t (some c), m₃.slots⟩ span.start =
        .ok s') :
      Stmt.Yields s (.define span name (some y) (some e)) p (.define m₃.slots name t (some c)) s'
        ⟨p.spent, m₃.slots + 1⟩
  | infer {s span name e p a m₁ m₂ s'} {b : Typed}
      (he : Expr.Yields s s.expressionLimit .anything e p.fresh a m₁)
      (hval : (Typed.asValue s s.expressionLimit a).Gives m₁ b m₂) (hv : b.type.isVoid = false)
      (ha : s.addVariable ⟨name, b.type, TypedStmt.definedRange s b.type (some b), m₂.slots⟩
        span.start = .ok s') :
      Stmt.Yields s (.define span name none (some e)) p (.define m₂.slots name b.type (some b)) s'
        ⟨p.spent, m₂.slots + 1⟩
  | leave {s span t p} (ht : s.returnType? = some t) (hv : t.isVoid = true) :
      Stmt.Yields s (.ret span none) p (.ret none) s p
  | ret {s span e t p a m q} {b : Typed} (ht : s.returnType? = some t)
      (he : Expr.Yields s s.expressionLimit (TypedStmt.returnExpected t) e p.fresh a m)
      (h : (Typed.meet s s.expressionLimit (TypedStmt.returnExpected t) a).Gives m b q)
      (hv : t.isVoid = true → b.type.isVoid = true) :
      Stmt.Yields s (.ret span (some e)) p (.ret (some b)) s ⟨p.spent, q.slots⟩
  | loop {s span c body p a m₁ b m₂ d q}
      (hc : Expr.Yields s s.expressionLimit (.required Builtin.bool) c p.fresh a m₁)
      (h : (Typed.meet s s.expressionLimit (.required Builtin.bool) a).Gives m₁ b m₂)
      (hb : Block.Yields s s.expressionLimit (.required Builtin.void) body m₂ d q) :
      Stmt.Yields s (.loop span c body) p (.loop b d) s ⟨p.spent, q.slots⟩

end

/-- Where no value is wanted a block gives none. -/
theorem Stmt.YieldsAll.result {s : Scope} {w : Weight} {x : Expected} {ss : List Stmt}
    {p q : Progress} {ts : List TypedStmt} {r : Option Typed} (hx : x.wantsValue = false)
    (h : Stmt.YieldsAll s w x ss p ts r q) : r = none := by
  match h with
  | .nil => rfl
  | .last hw _ _ =>
    rw [hx] at hw
    cases hw
  | .cons _ _ hs => exact hs.result hx

/-! ### What checking gives follows from the rules -/


mutual

/-- By induction on the expression. -/
theorem Expr.natural_yields (e : Expr) {s : Scope} {w : Weight} {x : Expected} {p q : Progress}
    {b : Typed} (h : (e.natural s w x).Gives p b q) : Expr.Yields s w x e p b q := by
  cases e with
  | literal span l =>
    rw [Expr.natural] at h
    exact .literal h
  | identifier span name =>
    rw [Expr.natural] at h
    exact .identifier h
  | prefixed span op e =>
    cases op with
    | negate =>
      rw [Expr.natural] at h
      obtain ⟨a, m, he, h⟩ := gives_bind.mp h
      exact .unary (o := .negate) (Expr.natural_yields e he) h
    | not =>
      rw [Expr.natural] at h
      obtain ⟨a, m, he, h⟩ := gives_bind.mp h
      exact .unary (o := .not) (Expr.natural_yields e he) h
    | addressOf =>
      rw [Expr.natural] at h
      obtain ⟨a, m, he, h⟩ := gives_bind.mp h
      exact .addressOf (Expr.natural_yields e he) h
    | dereference =>
      rw [Expr.natural] at h
      obtain ⟨a, m, he, h⟩ := gives_bind.mp h
      exact .dereference (Expr.natural_yields e he) h
  | binary span op l r =>
    rw [Expr.natural] at h
    obtain ⟨a, m, hl, h⟩ := gives_bind.mp h
    obtain ⟨a', m', hr, h⟩ := gives_bind.mp h
    exact .binary (Expr.natural_yields l hl) (Expr.natural_yields r hr) h
  | logical span op l r =>
    rw [Expr.natural] at h
    obtain ⟨a, m₁, hl, h⟩ := gives_bind.mp h
    obtain ⟨a', m₂, hl', h⟩ := gives_bind.mp h
    obtain ⟨b, m₃, hr, h⟩ := gives_bind.mp h
    obtain ⟨b', m₄, hr', h⟩ := gives_bind.mp h
    obtain ⟨rfl, rfl⟩ := gives_pure.mp h
    exact .logical (Expr.natural_yields l hl) hl' (Expr.natural_yields r hr) hr'
  | assign span l r =>
    rw [Expr.natural] at h
    obtain ⟨a, m₁, hl, h⟩ := gives_bind.mp h
    obtain ⟨t, _, ht, h⟩ := gives_bind.mp h
    obtain ⟨rfl, ha, hm, rfl⟩ := Typed.assignable_gives ht
    obtain ⟨b, m₂, hr, h⟩ := gives_bind.mp h
    obtain ⟨b', m₃, hr', h⟩ := gives_bind.mp h
    obtain ⟨rfl, rfl⟩ := gives_pure.mp h
    exact .assign (Expr.natural_yields l hl) ha hm (Expr.natural_yields r hr) hr'
  | call span callee es =>
    -- only what a name stands for is called
    cases callee with
    | identifier span' name =>
      rw [Expr.natural] at h
      obtain ⟨ids, _, hg, h⟩ := gives_bind.mp h
      obtain ⟨rfl, hn⟩ := Typed.calledFunctions_gives hg
      obtain ⟨as, m, hes, h⟩ := gives_bind.mp h
      exact .call hn (Expr.naturals_yields es hes) h
    | _ =>
      rw [Expr.natural.eq_def] at h
      obtain ⟨_, _, -, h⟩ := gives_bind.mp h
      exact absurd h not_gives_fail
  | conditional span c t e =>
    cases e with
    | none =>
      rw [Expr.natural] at h
      obtain ⟨a, m₁, hc, h⟩ := gives_bind.mp h
      obtain ⟨a', m₂, hc', h⟩ := gives_bind.mp h
      obtain ⟨b, m₃, ht, h⟩ := gives_bind.mp h
      obtain ⟨rfl, rfl⟩ := gives_pure.mp h
      exact .conditional (Expr.natural_yields c hc) hc' (Block.natural_yields t ht)
    | some e =>
      rw [Expr.natural] at h
      obtain ⟨a, m₁, hc, h⟩ := gives_bind.mp h
      obtain ⟨a', m₂, hc', h⟩ := gives_bind.mp h
      obtain ⟨b, m₃, ht, h⟩ := gives_bind.mp h
      obtain ⟨b', m₄, ht', h⟩ := gives_bind.mp h
      obtain ⟨b'', m₅, hd, h⟩ := gives_bind.mp h
      obtain ⟨d, m₆, he, h⟩ := gives_bind.mp h
      obtain ⟨d', m₇, he', h⟩ := gives_bind.mp h
      obtain ⟨range, _, hg, h⟩ := gives_bind.mp h
      obtain ⟨hr, rfl⟩ := gives_ofTraced.mp hg
      obtain ⟨rfl, rfl⟩ := gives_pure.mp h
      exact .choice (Expr.natural_yields c hc) hc' (Block.natural_yields t ht) ht' hd
        (Block.natural_yields e he) he' hr
  | block b =>
    rw [Expr.natural] at h
    exact .block (Block.natural_yields b h)
  | cast span e y =>
    rw [Expr.natural] at h
    obtain ⟨t, _, hg, h⟩ := gives_bind.mp h
    obtain ⟨ht, rfl⟩ := gives_ofError.mp hg
    obtain ⟨a, m, he, h⟩ := gives_bind.mp h
    obtain ⟨a', _, hc, h⟩ := gives_bind.mp h
    obtain ⟨hc, hq⟩ := Typed.convert_gives hc
    obtain ⟨rfl, rfl⟩ := gives_pure.mp h
    exact .cast ht (Expr.natural_yields e he) hc hq

theorem Expr.naturals_yields (es : List Expr) {s : Scope} {w : Weight} {p q : Progress}
    {as : List Typed} (h : (Expr.naturals s w es).Gives p as q) : Expr.YieldsAll s w es p as q := by
  cases es with
  | nil =>
    rw [Expr.naturals] at h
    obtain ⟨rfl, rfl⟩ := gives_pure.mp h
    exact .nil
  | cons e es =>
    rw [Expr.naturals] at h
    obtain ⟨a, m, ha, h⟩ := gives_bind.mp h
    obtain ⟨as, m', has, h⟩ := gives_bind.mp h
    obtain ⟨rfl, rfl⟩ := gives_pure.mp h
    exact .cons (Expr.natural_yields e ha) (Expr.naturals_yields es has)

theorem Block.natural_yields (b : Block) {s : Scope} {w : Weight} {x : Expected} {p q : Progress}
    {e : Typed} (h : (b.natural s w x).Gives p e q) : Block.Yields s w x b p e q := by
  cases b with
  | mk span ss =>
    rw [Block.natural] at h
    obtain ⟨⟨ts, r⟩, _, hss, h⟩ := gives_bind.mp h
    obtain ⟨rfl, rfl⟩ := gives_pure.mp h
    exact .mk (Stmt.checkAll_yields ss hss)

/-- The statements of a block follow the rules. -/
theorem Stmt.checkAll_yields (ss : List Stmt) {s : Scope} {w : Weight} {x : Expected}
    {p q : Progress} {ts : List TypedStmt} {r : Option Typed}
    (h : (Stmt.checkAll s w x ss).Gives p (ts, r) q) : Stmt.YieldsAll s w x ss p ts r q := by
  cases ss with
  | nil =>
    rw [Stmt.checkAll] at h
    obtain ⟨he, rfl⟩ := gives_pure.mp h
    cases he
    exact .nil
  | cons st ss =>
    have first := @Stmt.check_yields st s
    have rest := @Stmt.checkAll_yields ss
    have value : ∀ span e, st = .expr span e → ∀ {a m}, (e.natural s w x).Gives p a m →
        Expr.Yields s w x e p a m := by
      cases st with
      | expr _ e =>
        rintro _ _ ⟨⟩
        exact Expr.natural_yields e
      | _ => nofun
    unfold Stmt.checkAll at h
    split at h
    · next span e hx =>
      obtain ⟨a, m, ha, h⟩ := gives_bind.mp h
      obtain ⟨b, _, hb, h⟩ := gives_bind.mp h
      obtain ⟨he, rfl⟩ := gives_pure.mp h
      cases he
      exact .last hx (value span e rfl ha) hb
    · next hne =>
      obtain ⟨⟨t, s'⟩, m, ht, h⟩ := gives_bind.mp h
      obtain ⟨⟨ts, r⟩, _, hts, h⟩ := gives_bind.mp h
      obtain ⟨he, rfl⟩ := gives_pure.mp h
      cases he
      exact .cons (fun hx hss span e hs => hne span e hs hss hx) (first ht) (rest hts)

/-- A statement follows the rules. -/
theorem Stmt.check_yields (st : Stmt) {s s' : Scope} {p q : Progress} {t : TypedStmt}
    (h : (st.check s).Gives p (t, s') q) : Stmt.Yields s st p t s' q := by
  cases st with
  | expr span e =>
    rw [Stmt.check] at h
    obtain ⟨_, hs, rfl⟩ := gives_statement.mp h
    obtain ⟨b, m, hb, h⟩ := gives_bind.mp hs
    obtain ⟨he, rfl⟩ := gives_pure.mp h
    cases he
    exact .expr (Expr.natural_yields e hb)
  | define span name type init =>
    rw [Stmt.check.eq_def] at h
    cases type with
    | none =>
      cases init with
      | none =>
        obtain ⟨_, hs, rfl⟩ := gives_statement.mp h
        obtain ⟨hf, -⟩ := gives_ofFault.mp hs
        cases hf
      | some e =>
        obtain ⟨_, hs, rfl⟩ := gives_statement.mp h
        obtain ⟨a, m₁, he, h⟩ := gives_bind.mp hs
        obtain ⟨b, m₂, hval, h⟩ := gives_bind.mp h
        obtain ⟨hv, rfl, rfl, ha⟩ := TypedStmt.defineIn_gives h
        exact .infer (Expr.natural_yields e he) hval hv ha
    | some y =>
      cases init with
      | none =>
        obtain ⟨_, hs, rfl⟩ := gives_statement.mp h
        obtain ⟨t, _, hg, h⟩ := gives_bind.mp hs
        obtain ⟨ht, rfl⟩ := gives_ofError.mp hg
        obtain ⟨hv, rfl, rfl, ha⟩ := TypedStmt.defineIn_gives h
        exact .declare ht hv ha
      | some e =>
        obtain ⟨_, hs, rfl⟩ := gives_statement.mp h
        obtain ⟨t, _, hg, h⟩ := gives_bind.mp hs
        obtain ⟨ht, rfl⟩ := gives_ofError.mp hg
        obtain ⟨a, m₁, he, h⟩ := gives_bind.mp h
        obtain ⟨b, m₂, hm, h⟩ := gives_bind.mp h
        obtain ⟨c, m₃, hval, h⟩ := gives_bind.mp h
        obtain ⟨hv, rfl, rfl, ha⟩ := TypedStmt.defineIn_gives h
        exact .define ht (Expr.natural_yields e he) hm hval hv ha
  | ret span value =>
    cases value with
    | none =>
      rw [Stmt.check] at h
      obtain ⟨_, hs, rfl⟩ := gives_statement.mp h
      obtain ⟨t, _, hg, h⟩ := gives_bind.mp hs
      obtain ⟨rfl, ht⟩ := TypedStmt.returnType_gives hg
      obtain ⟨r, _, hr, h⟩ := gives_bind.mp h
      obtain ⟨rfl, rfl, hv⟩ := TypedStmt.retOf_gives hr
      obtain ⟨he, rfl⟩ := gives_pure.mp h
      cases he
      exact .leave ht hv
    | some e =>
      rw [Stmt.check] at h
      obtain ⟨_, hs, rfl⟩ := gives_statement.mp h
      obtain ⟨t, _, hg, h⟩ := gives_bind.mp hs
      obtain ⟨rfl, ht⟩ := TypedStmt.returnType_gives hg
      obtain ⟨a, m₁, ha, h⟩ := gives_bind.mp h
      obtain ⟨b, m₂, hb, h⟩ := gives_bind.mp h
      obtain ⟨r, _, hr, h⟩ := gives_bind.mp h
      obtain ⟨rfl, rfl, hv⟩ := TypedStmt.retOf_gives hr
      obtain ⟨he, rfl⟩ := gives_pure.mp h
      cases he
      exact .ret ht (Expr.natural_yields e ha) hb hv
  | loop span c body =>
    rw [Stmt.check] at h
    obtain ⟨_, hs, rfl⟩ := gives_statement.mp h
    obtain ⟨a, m₁, hc, h⟩ := gives_bind.mp hs
    obtain ⟨b, m₂, hb, h⟩ := gives_bind.mp h
    obtain ⟨d, m₃, hd, h⟩ := gives_bind.mp h
    obtain ⟨he, rfl⟩ := gives_pure.mp h
    cases he
    exact .loop (Expr.natural_yields c hc) hb (Block.natural_yields body hd)

end

end Gauge
