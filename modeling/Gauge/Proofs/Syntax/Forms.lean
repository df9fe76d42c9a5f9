import Gauge.Syntax.Parser

/-!
# Proofs — the tables of readers know their tokens

The tables of the parser name a reader for each token that begins a form, and the reader takes the
token apart.  Each reader knows every token that its table sends it, so reading is the same with the
forms told by their tokens at once (`Parse.prefixForm_succ`, `Parse.infixForms_succ`), and no token
is a fault.
-/

namespace Gauge

namespace InfixForm

/-- The form that a token begins, if it begins one. -/
def ofKind? : TokenKind → Option InfixForm
  | .assignment => some .assign
  | .or => some (.logical .or)
  | .and => some (.logical .and)
  | .kwAs => some .cast
  | .openParen => some .call
  | k => (BinaryOp.ofKind? k).map .binary

def power : InfixForm → Power
  | .assign => .assignment
  | .logical .or => .logicalOr
  | .logical .and => .logicalAnd
  | .binary .add | .binary .subtract => .additive
  | .binary .multiply | .binary .divide | .binary .modulo => .multiplicative
  | .binary _ => .relational
  | .cast => .cast
  | .call => .call

end InfixForm

/-- The reader of a token takes it for the form that the token begins. -/
theorem InfixReader.form_eq (k : TokenKind) :
    (InfixReader.ofKind? k).map (fun p => (p.1, p.2.form k)) =
      (InfixForm.ofKind? k).map fun f => (f.power, .ok f) := by
  cases k <;> rfl

namespace Parse

/-- An infix form is told by its operator. -/
theorem infixForms_succ (n : Nat) (power : Power) (left : Expr) :
    infixForms (n + 1) power left = (do
      match InfixForm.ofKind? (← kind) with
      | none => return left
      | some form =>
        if form.power.tighter power then
          let _ ← advance
          let extended ← infixForm n form form.power left
          infixForms n power extended
        else return left) := by
  rw [infixForms]
  funext c
  have table := InfixReader.form_eq c.kind
  show StateT.run _ c = StateT.run _ c
  simp only [kind, bind, StateT.bind, Except.bind, StateT.run]
  cases hr : InfixReader.ofKind? c.kind with
  | none =>
    rw [hr] at table
    rw [Option.map_eq_none_iff.mp table.symm]
  | some p =>
    obtain ⟨next, reader⟩ := p
    rw [hr] at table
    obtain ⟨form, hf, hform⟩ := Option.map_eq_some_iff.mp table.symm
    obtain ⟨rfl, known⟩ := Prod.mk.inj hform
    rw [hf]
    dsimp only
    split
    · show (Failure.ofFault (reader.form c.kind)).map _ >>= _ = _
      rw [← known]
      rfl
    · rfl

/-- A prefix form is told by its first token: it is an expression of its own, or it stands before an
operand, or it opens a group, a block or a conditional. -/
theorem prefixForm_succ (n : Nat) :
    prefixForm (n + 1) = (do
      let token ← current
      match Expr.ofToken? token with
      | some e =>
        let _ ← advance
        return e
      | none =>
        match PrefixOp.ofKind? token.kind with
        | some op =>
          let _ ← advance
          let operand ← expr n .unary
          return .prefixed (← spanFrom token.span.start) op operand
        | none =>
          match token.kind with
          | .openParen =>
            let _ ← advance
            let inner ← expr n .default
            let _ ← expect .closeParen
            return inner
          | .openCurly => return .block (← block n)
          | .kwIf => conditional n
          | _ => refuse) := by
  rw [prefixForm]
  funext c
  have read : ∀ f : Token → Parse Expr, StateT.bind advance f c = f c.current c.next := fun _ => rfl
  show StateT.run _ c = StateT.run _ c
  simp only [kind, current, bind, StateT.bind, Except.bind, StateT.run, Cursor.kind]
  rcases hc : c.current with ⟨k, value, span⟩
  cases k <;> simp only [PrefixReader.ofKind?, PrefixOp.ofKind?, Expr.ofToken?, read, hc] <;> rfl

end Parse

end Gauge
