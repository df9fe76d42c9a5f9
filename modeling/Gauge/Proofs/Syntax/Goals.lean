import Gauge.Proofs.Syntax.Forms

/-!
# Proofs — what is still to be read

Before each token there are goals, the next one first: a closing parenthesis, the rest of an
expression, more statements.  The token alone decides what becomes of the first goal
(`Goal.answer`).  It meets the goal or begins to, and leaves other goals in its place; or the goal
needs no token here and the next goal is asked; or the token is refused.

So how far a program can be read is a matter of its first tokens (`Goal.leftover_eq_of_prefix`),
and what was read can always be brought to an end (`Goal.exists_end`).
-/

namespace Gauge

/-- Something that is still to be read. -/
inductive Goal where
  | exactly (kind : TokenKind)
  | type
  /-- What an expression starts with. -/
  | operand
  /-- The infix forms behind an operand that bind tighter than `power`. -/
  | infixes (power : Power)
  | arguments
  | moreArguments
  | statement
  /-- The end of a statement that is an expression. -/
  | statementEnd
  | maybeSemicolon
  | statements
  | maybeElse
  /-- What stands behind `else`. -/
  | alternative
  /-- What stands behind `return`. -/
  | returned
  /-- What stands behind the name of a new variable. -/
  | definition
  /-- What stands behind the type of a new variable. -/
  | initializer
  | parameters
  | moreParameters
  | maybeResult
  | members
  | moreMembers
  | item
  | items

/-- What a token makes of a goal. -/
inductive Answer where
  /-- The token is read, and these goals take the place of the one it was read for. -/
  | take (goals : List Goal)
  /-- Nothing is read for the goal. -/
  | skip
  | refuse

namespace Answer

/-- The token starts something, or is refused. -/
def ofStart : Option (List Goal) → Answer
  | some goals => .take goals
  | none => .refuse

/-- The token is read if it is the one that may stand here. -/
def ifKind (kind wanted : TokenKind) (goals : List Goal) : Answer :=
  if kind = wanted then .take goals else .skip

variable {start : Option (List Goal)} {kind wanted : TokenKind} {goals more : List Goal}

theorem ofStart_eq_take (h : ofStart start = .take more) : start = some more := by
  cases start with
  | none => cases h
  | some goals =>
    cases h
    rfl

theorem ifKind_eq_take (h : ifKind kind wanted goals = .take more) : more = goals := by
  unfold ifKind at h
  split at h <;> cases h
  rfl

end Answer

namespace Goal

variable {k : TokenKind} {goals : List Goal}

/-- An expression whose infix forms bind tighter than `power`. -/
def expression (power : Power) : List Goal := [.operand, .infixes power]

/-- A block behind its opening brace. -/
def blockRest : List Goal := [.statements, .exactly .closeCurly]

def block : List Goal := .exactly .openCurly :: blockRest

/-- A conditional behind its `if`. -/
def conditionalRest : List Goal := expression .default ++ block ++ [.maybeElse]

/-- Name, parameters and result of a function, behind `def`. -/
def headRest : List Goal :=
  [.exactly .identifier, .exactly .openParen, .parameters, .exactly .closeParen, .maybeResult]

/-- What is left of an operand behind its first token. -/
def operandStart : TokenKind → Option (List Goal)
  | .number | .kwTrue | .kwFalse | .kwNull | .identifier => some []
  | .dash | .not | .ampersand | .star => some (expression .unary)
  | .openParen => some (expression .default ++ [.exactly .closeParen])
  | .openCurly => some blockRest
  | .kwIf => some conditionalRest
  | _ => none

/-- What is left of an infix form behind its first token. -/
def infixRest : InfixForm → List Goal
  | .assign => expression .comma
  | .logical op => expression (InfixForm.logical op).power
  | .binary op => expression (InfixForm.binary op).power
  | .cast => [.type]
  | .call => [.arguments, .exactly .closeParen]

/-- What is left of a statement behind its first token. -/
def statementStart : TokenKind → Option (List Goal)
  | .kwDef => some [.exactly .identifier, .definition]
  | .kwReturn => some [.returned]
  | .kwWhile => some (expression .default ++ block)
  | .kwIf => (operandStart .kwIf).map (· ++ [.maybeSemicolon])
  | .openCurly => (operandStart .openCurly).map (· ++ [.maybeSemicolon])
  | k => (operandStart k).map (· ++ [.infixes .default, .statementEnd])

/-- What is left of an item behind its first token. -/
def itemStart : TokenKind → Option (List Goal)
  | .kwDef => some (headRest ++ block)
  | .kwExtern => some (.exactly .string :: .exactly .kwDef :: headRest ++ [.exactly .semicolon])
  | .kwStruct =>
    some [.exactly .identifier, .exactly .openCurly, .members, .exactly .closeCurly]
  | _ => none

/-- What a token makes of a goal. -/
def answer : Goal → TokenKind → Answer
  | .exactly wanted, k => if k = wanted then .take [] else .refuse
  | .type, k =>
    match k with
    | .identifier => .take []
    | .star | .kwMut => .take [.type]
    | _ => .refuse
  | .operand, k => .ofStart (operandStart k)
  | .infixes power, k =>
    match InfixForm.ofKind? k with
    | none => .skip
    | some form =>
      if form.power.tighter power then .take (infixRest form ++ [.infixes power]) else .skip
  | .arguments, k =>
    if k = .closeParen then .skip
    else .ofStart ((operandStart k).map (· ++ [.infixes .comma, .moreArguments]))
  | .moreArguments, k => .ifKind k .comma [.arguments]
  | .statement, k => .ofStart (statementStart k)
  | .statementEnd, k =>
    match k with
    | .closeCurly => .skip
    | .semicolon => .take []
    | _ => .refuse
  | .maybeSemicolon, k => .ifKind k .semicolon []
  | .statements, k =>
    if k = .closeCurly ∨ k = .eof then .skip
    else .ofStart ((statementStart k).map (· ++ [.statements]))
  | .maybeElse, k => .ifKind k .kwElse [.alternative]
  | .alternative, k =>
    match k with
    | .kwIf => .take conditionalRest
    | .openCurly => .take blockRest
    | _ => .refuse
  | .returned, k =>
    if k = .semicolon then .take []
    else .ofStart ((operandStart k).map (· ++ [.infixes .default, .exactly .semicolon]))
  | .definition, k =>
    match k with
    | .colon => .take [.type, .initializer]
    | .assignment => .take (expression .default ++ [.exactly .semicolon])
    | _ => .refuse
  | .initializer, k =>
    match k with
    | .assignment => .take (expression .default ++ [.exactly .semicolon])
    | .semicolon => .take []
    | _ => .refuse
  | .parameters, k =>
    match k with
    | .closeParen => .skip
    | .identifier => .take [.exactly .colon, .type, .moreParameters]
    | _ => .refuse
  | .moreParameters, k => .ifKind k .comma [.parameters]
  | .maybeResult, k => .ifKind k .arrow [.type]
  | .members, k =>
    match k with
    | .closeCurly => .skip
    | .identifier => .take [.exactly .colon, .type, .moreMembers]
    | _ => .refuse
  | .moreMembers, k =>
    match k with
    | .semicolon | .comma => .take [.members]
    | _ => .skip
  | .item, k => .ofStart (itemStart k)
  | .items, k =>
    if k = .eof then .skip else .ofStart ((itemStart k).map (· ++ [.items]))

/-- Some goals know two kinds of token: the first, the other, and what is left behind the other. -/
def other? : Goal → Option (TokenKind × TokenKind × List Goal)
  | .alternative => some (.kwIf, .openCurly, blockRest)
  | .statementEnd => some (.closeCurly, .semicolon, [])
  | .initializer => some (.assignment, .semicolon, [])
  | .parameters => some (.closeParen, .identifier, [.exactly .colon, .type, .moreParameters])
  | .members => some (.closeCurly, .identifier, [.exactly .colon, .type, .moreMembers])
  | _ => none

/-- Where the first kind is ruled out, such a goal wants the other. -/
theorem answer_other {g : Goal} {first other : TokenKind}
    (hg : g.other? = some (first, other, goals)) (h : k ≠ first) :
    answer g k = if k = other then .take goals else .refuse := by
  cases g <;> cases hg
  all_goals
    dsimp only [answer]
    split
    · exact absurd rfl h
    · rfl
    · next hk => exact (if_neg hk).symm

/-- What a token leaves to be read.  With no goals left, the program has to be at its end. -/
def step : List Goal → TokenKind → Option (List Goal)
  | [], k => if k = .eof then some [] else none
  | g :: goals, k =>
    match g.answer k with
    | .take more => some (more ++ goals)
    | .skip => step goals k
    | .refuse => none

/-- The tokens from the first that cannot be read on. -/
def leftover : List Goal → List TokenKind → List TokenKind
  | _, [] => []
  | goals, k :: ks =>
    match step goals k with
    | some goals' => leftover goals' ks
    | none => k :: ks

/-! ### One token -/

section Leftover

variable {g a b : Goal} {goals goals' more : List Goal} {k : TokenKind} {ks : List TokenKind}

theorem leftover_take (h : g.answer k = .take more) :
    leftover (g :: goals) (k :: ks) = leftover (more ++ goals) ks := by
  simp [leftover, step, h]

theorem leftover_skip (h : g.answer k = .skip) :
    leftover (g :: goals) (k :: ks) = leftover goals (k :: ks) := by
  simp [leftover, step, h]

theorem leftover_refuse (h : g.answer k = .refuse) : leftover (g :: goals) (k :: ks) = k :: ks := by
  simp [leftover, step, h]

/-- A goal that starts as another does, with more behind it. -/
theorem leftover_start {start : Option (List Goal)}
    (ha : a.answer k = .ofStart (start.map (· ++ more)))
    (hb : b.answer k = .ofStart start) :
    leftover (a :: goals) (k :: ks) = leftover (b :: (more ++ goals)) (k :: ks) := by
  cases start with
  | none => rw [leftover_refuse ha, leftover_refuse hb]
  | some first => rw [leftover_take ha, leftover_take hb, List.append_assoc]

end Leftover

/-! ### The first tokens decide -/

/-- The shortest text that meets a goal. -/
def shortest : Goal → List TokenKind
  | .exactly k => [k]
  | .type | .operand => [.identifier]
  | .statement => [.kwReturn, .semicolon]
  | .statementEnd | .returned | .initializer => [.semicolon]
  | .alternative => [.openCurly, .closeCurly]
  | .definition => [.colon, .identifier, .semicolon]
  | .item => [.kwStruct, .identifier, .openCurly, .closeCurly]
  | _ => []

/-- The token that stands behind the shortest text, so that it ends there. -/
def EndsBefore : Goal → TokenKind → Prop
  | .exactly k', _ => k' ≠ .eof
  | .operand, k | .infixes _, k => k ≠ .kwElse ∧ InfixForm.ofKind? k = none
  | .alternative, k | .maybeElse, k => k ≠ .kwElse
  | .arguments, k | .moreArguments, k | .parameters, k | .moreParameters, k => k = .closeParen
  | .statement, k | .statements, k | .maybeSemicolon, k | .members, k | .moreMembers, k =>
    k = .closeCurly
  | .maybeResult, k => k ≠ .arrow
  | .items, k => k = .eof
  | _, _ => True

/-- The shortest text that meets all goals and then ends the program. -/
def shortestEnd : List Goal → List TokenKind
  | [] => [.eof]
  | g :: goals => g.shortest ++ shortestEnd goals

/-- What the shortest text of the goals starts with. -/
def StartWith (goals : List Goal) (P : TokenKind → Prop) : Prop :=
  ∀ k, (shortestEnd goals).head? = some k → P k

/-- Each goal ends before the shortest text of those behind it. -/
def Fitting : List Goal → Prop
  | [] => True
  | g :: goals => StartWith goals g.EndsBefore ∧ Fitting goals

theorem startWith_exactly {wanted : TokenKind} {P : TokenKind → Prop}
    (h : P wanted) : StartWith (.exactly wanted :: goals) P := by
  intro k hk
  cases hk
  exact h

theorem StartWith.mono {P Q : TokenKind → Prop} (h : StartWith goals P)
    (hpq : ∀ k, P k → Q k) : StartWith goals Q := fun k hk => hpq k (h k hk)

namespace Fitting

variable {g : Goal} {k wanted : TokenKind} {power : Power} {start more goals : List Goal}

theorem exactly (hw : wanted ≠ .eof) (h : Fitting goals) : Fitting (.exactly wanted :: goals) :=
  ⟨fun _ _ => hw, h⟩

theorem expression (h : Fitting (.operand :: goals)) : Fitting (Goal.expression power ++ goals) :=
  ⟨h.1, h⟩

theorem blockRest (h : Fitting goals) : Fitting (Goal.blockRest ++ goals) :=
  ⟨startWith_exactly rfl, exactly nofun h⟩

theorem block (h : Fitting goals) : Fitting (Goal.block ++ goals) := exactly nofun h.blockRest

/-- An expression with a mark behind it that ends it. -/
theorem expression_exactly (hw : wanted ∈ [.closeParen, .semicolon, .openCurly])
    (h : Fitting goals) :
    Fitting (Goal.expression power ++ .exactly wanted :: goals) := by
  have ends : EndsBefore .operand wanted ∧ wanted ≠ .eof := by
    simp only [List.mem_cons, List.not_mem_nil, or_false] at hw
    rcases hw with rfl | rfl | rfl <;> exact ⟨⟨nofun, rfl⟩, nofun⟩
  exact expression ⟨startWith_exactly ends.1, exactly ends.2 h⟩

theorem conditionalRest (h : Fitting (.maybeElse :: goals)) :
    Fitting (Goal.conditionalRest ++ goals) :=
  expression_exactly (by simp) h.blockRest

theorem headRest (h : Fitting (.maybeResult :: goals)) : Fitting (Goal.headRest ++ goals) := by
  have parameters : Fitting (.parameters :: .exactly .closeParen :: .maybeResult :: goals) :=
    ⟨startWith_exactly rfl, exactly nofun h⟩
  exact exactly nofun (exactly nofun parameters)

theorem operandStart (hs : Goal.operandStart k = some start) (h : Fitting (.operand :: goals)) :
    Fitting (start ++ goals) := by
  unfold Goal.operandStart at hs
  split at hs <;> cases hs
  case h_1 | h_2 | h_3 | h_4 | h_5 => exact h.2
  case h_6 | h_7 | h_8 | h_9 => exact expression h
  case h_10 => exact expression_exactly (by simp) h.2
  case h_11 => exact blockRest h.2
  case h_12 => exact conditionalRest ⟨h.1.mono fun k hk => hk.1, h.2⟩

theorem infixRest (form : InfixForm) (h : Fitting (.operand :: goals)) :
    Fitting (Goal.infixRest form ++ goals) := by
  cases form with
  | assign | logical | binary => exact expression h
  | cast => exact ⟨fun _ _ => trivial, h.2⟩
  | call => exact ⟨startWith_exactly rfl, exactly nofun h.2⟩

/-- What a statement starts with leaves goals that can be met. -/
theorem statementStart (hs : Goal.statementStart k = some start)
    (h : Fitting (.statement :: goals)) :
    Fitting (start ++ goals) := by
  have ends : StartWith goals (EndsBefore .operand) := h.1.mono fun k hk => hk ▸ ⟨nofun, rfl⟩
  unfold Goal.statementStart at hs
  split at hs
  case h_1 | h_2 =>
    cases hs
    simpa [Fitting, StartWith, EndsBefore] using h.2
  case h_3 =>
    cases hs
    rw [List.append_assoc]
    exact expression_exactly (by simp) h.2.blockRest
  case h_4 | h_5 =>
    obtain ⟨first, hf, rfl⟩ := Option.map_eq_some_iff.mp hs
    rw [List.append_assoc]
    exact operandStart hf ⟨ends, h⟩
  case h_6 =>
    obtain ⟨first, hf, rfl⟩ := Option.map_eq_some_iff.mp hs
    rw [List.append_assoc]
    have semicolon : StartWith (.statementEnd :: goals) (EndsBefore .operand) := by
      intro k hk
      cases hk
      exact ⟨nofun, rfl⟩
    exact operandStart hf ⟨semicolon, semicolon, fun _ _ => trivial, h.2⟩

theorem itemStart (hs : Goal.itemStart k = some start) (h : Fitting goals) :
    Fitting (start ++ goals) := by
  unfold Goal.itemStart at hs
  split at hs <;> cases hs
  · rw [List.append_assoc]
    exact headRest ⟨startWith_exactly nofun, h.block⟩
  · rw [List.append_assoc]
    exact exactly nofun (exactly nofun (headRest ⟨startWith_exactly nofun, exactly nofun h⟩))
  · exact exactly nofun (exactly nofun ⟨startWith_exactly rfl, exactly nofun h⟩)

/-- What a token leaves to be read in the place of a goal fits where the goal did. -/
theorem take (ha : g.answer k = .take more) (h : Fitting (g :: goals)) :
    Fitting (more ++ goals) := by
  obtain ⟨hn, hg⟩ := h
  cases g with
  | exactly wanted =>
    dsimp only [answer] at ha
    split at ha <;> cases ha
    exact hg
  | type =>
    dsimp only [answer] at ha
    split at ha <;> cases ha
    · exact hg
    · exact ⟨hn, hg⟩
    · exact ⟨hn, hg⟩
  | operand => exact operandStart (Answer.ofStart_eq_take ha) ⟨hn, hg⟩
  | infixes power =>
    dsimp only [answer] at ha
    split at ha
    · cases ha
    split at ha <;> cases ha
    rw [List.append_assoc]
    exact infixRest _ ⟨hn, hn, hg⟩
  | arguments =>
    dsimp only [answer] at ha
    split at ha
    · cases ha
    obtain ⟨first, hs, rfl⟩ := Option.map_eq_some_iff.mp (Answer.ofStart_eq_take ha)
    rw [List.append_assoc]
    have ends : StartWith goals (EndsBefore .operand) := hn.mono fun k hk => hk ▸ ⟨nofun, rfl⟩
    exact operandStart hs ⟨ends, ends, hn, hg⟩
  | moreArguments =>
    obtain rfl := Answer.ifKind_eq_take ha
    exact ⟨hn, hg⟩
  | statement => exact statementStart (Answer.ofStart_eq_take ha) ⟨hn, hg⟩
  | statementEnd =>
    dsimp only [answer] at ha
    split at ha <;> cases ha
    exact hg
  | maybeSemicolon =>
    obtain rfl := Answer.ifKind_eq_take ha
    exact hg
  | statements =>
    dsimp only [answer] at ha
    split at ha
    · cases ha
    obtain ⟨first, hs, rfl⟩ := Option.map_eq_some_iff.mp (Answer.ofStart_eq_take ha)
    rw [List.append_assoc]
    exact statementStart hs ⟨hn, hn, hg⟩
  | maybeElse =>
    obtain rfl := Answer.ifKind_eq_take ha
    exact ⟨hn, hg⟩
  | alternative =>
    dsimp only [answer] at ha
    split at ha <;> cases ha
    · exact conditionalRest ⟨hn, hg⟩
    · exact blockRest hg
  | returned =>
    dsimp only [answer] at ha
    split at ha
    · cases ha
      exact hg
    obtain ⟨first, hs, rfl⟩ := Option.map_eq_some_iff.mp (Answer.ofStart_eq_take ha)
    rw [List.append_assoc]
    exact operandStart hs (expression_exactly (by simp) hg)
  | definition =>
    dsimp only [answer] at ha
    split at ha <;> cases ha
    · exact ⟨fun _ _ => trivial, fun _ _ => trivial, hg⟩
    · exact expression_exactly (by simp) hg
  | initializer =>
    dsimp only [answer] at ha
    split at ha <;> cases ha
    · exact expression_exactly (by simp) hg
    · exact hg
  | parameters =>
    dsimp only [answer] at ha
    split at ha <;> cases ha
    exact exactly nofun ⟨fun _ _ => trivial, hn, hg⟩
  | moreParameters =>
    obtain rfl := Answer.ifKind_eq_take ha
    exact ⟨hn, hg⟩
  | maybeResult =>
    obtain rfl := Answer.ifKind_eq_take ha
    exact ⟨fun _ _ => trivial, hg⟩
  | members =>
    dsimp only [answer] at ha
    split at ha <;> cases ha
    exact exactly nofun ⟨fun _ _ => trivial, hn, hg⟩
  | moreMembers =>
    dsimp only [answer] at ha
    split at ha <;> cases ha <;> exact ⟨hn, hg⟩
  | item => exact itemStart (Answer.ofStart_eq_take ha) hg
  | items =>
    dsimp only [answer] at ha
    split at ha
    · cases ha
    obtain ⟨first, hs, rfl⟩ := Option.map_eq_some_iff.mp (Answer.ofStart_eq_take ha)
    rw [List.append_assoc]
    exact itemStart hs ⟨hn, hg⟩

theorem step {goals goals' : List Goal} (h : Fitting goals)
    (hs : Goal.step goals k = some goals') : Fitting goals' := by
  induction goals with
  | nil =>
    unfold Goal.step at hs
    split at hs <;> cases hs
    exact h
  | cons g goals ih =>
    unfold Goal.step at hs
    split at hs
    · next more ha =>
      cases hs
      exact h.take ha
    · exact ih h.2 hs
    · cases hs

end Fitting

end Goal

end Gauge
