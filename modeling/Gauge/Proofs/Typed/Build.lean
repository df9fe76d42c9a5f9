import Gauge.Proofs.Scope
import Gauge.Proofs.Typed.Contenders

/-!
# Proofs — what the builders of typed trees give

One statement for each function that builds a typed expression out of its parts: if it succeeds,
what the result looks like and what its parts are.  Every invariant of typed trees is proved from
these, without opening the functions again.

* `Typed.Converted` — the ways in which a conversion can succeed;
* `Typed.unary_gives`, `Typed.binary_gives`, `Typed.call_gives`, … — expressions;
* `TypedStmt.defineIn_gives`, `TypedStmt.retOf_gives` — statements.
-/

namespace Gauge

open Check

namespace Typed

@[simp] theorem type_plain (n : Node) (t : Ty) (r : Range) (span : Span) :
    (plain n t r span).type = t := rfl

@[simp] theorem range_plain (n : Node) (t : Ty) (r : Range) (span : Span) :
    (plain n t r span).range = r := rfl

theorem type_attach (e : Typed) (c : Chain) : (e.attach c).type = Step.typeAfter e.type c.steps :=
  Step.typeAfter_append e.facts.type e.facts.chain.steps c.steps

theorem range_attach (e : Typed) (c : Chain) :
    (e.attach c).range = Step.rangeAfter e.range c.steps :=
  Step.rangeAfter_append e.facts.range e.facts.chain.steps c.steps

/-! ### Conversions -/

/-- A literal that is taken for a value of the target type. -/
inductive Adopted (scope : Scope) (target : Ty) : Typed → Typed → Prop
  | integer {f : Facts} {n : Nat} {range : Range} (hc : f.chain.steps = [])
      (hf : target.isFlagged = false) (ht : target.isInteger = true)
      (hr : Range.literal target n = .ok range) :
      Adopted scope target (.mk f (.constant (.integer n)))
        (.mk { f with type := target, range := range } (.constant (.integer n)))
  | null {f : Facts} {range : Range} (hc : f.chain.steps = []) (hf : target.isFlagged = false)
      (ht : target.isPointer = true) (hr : scope.structs.nullRange target = .ok range) :
      Adopted scope target (.mk f (.constant .null))
        (.mk { f with type := target, range := range } (.constant .null))

/-- The ways in which converting `e` can succeed: it has the type already, and otherwise it is a
literal, it is given a chain of conversions, or it need not succeed. -/
inductive Converted (scope : Scope) (target : Ty) (mandatory explicit : Bool) (e : Typed) :
    Typed → Prop
  | same (h : (scope.compare e.type target).outcome = .ok true) :
      Converted scope target mandatory explicit e e
  | adopted {e' : Typed} (h : Adopted scope target e e') :
      Converted scope target mandatory explicit e e'
  | chain {c : Chain} (hne : (scope.compare e.type target).outcome = .ok false)
      (h : (scope.search e.type e.range ⟨target, explicit, scope.castLimit⟩).outcome =
        .ok (.chain c false)) : Converted scope target mandatory explicit e (e.attach c)
  | kept (h : mandatory = false) : Converted scope target mandatory explicit e e

variable {scope : Scope} {limit : Weight} {e e' : Typed} {p q : Progress} {span : Span}

/-- A literal that is adopted is a constant of the new type. -/
theorem adopt_eq_some {target : Ty} (h : e.adopt scope target = .ok (some e')) :
    Adopted scope target e e' := by
  obtain ⟨f, n⟩ := e
  unfold adopt at h
  split at h
  · cases h
  · next hc =>
    simp only [Bool.or_eq_true, Bool.not_eq_true', not_or, Bool.not_eq_false, Bool.not_eq_true]
      at hc
    have hs : f.chain.steps = [] := List.isEmpty_iff.mp hc.1
    split at h
    · next value hn =>
      obtain rfl : n = .constant (.integer value) := hn
      split at h
      · split at h
        · next ht =>
          obtain ⟨range, hr, h⟩ := bind_eq_ok.mp h
          cases h
          exact .integer hs hc.2 ht.1 hr
        · cases h
      · cases h
    · next hn =>
      obtain rfl : n = .constant .null := hn
      split at h
      · next ht =>
        obtain ⟨range, hr, h⟩ := bind_eq_ok.mp h
        cases h
        exact .null hs hc.2 ht hr
      · cases h
    · cases h

/-- A conversion succeeds in one of the ways of `Converted`. -/
theorem convert_gives {target : Ty} {mandatory explicit : Bool}
    (h : (e.convert scope limit target mandatory explicit).Gives p e' q) :
    Converted scope target mandatory explicit e e' ∧ q.slots = p.slots := by
  simp only [convert, gives_bind, gives_ofTraced] at h
  obtain ⟨b, _, ⟨hb, rfl⟩, h⟩ := h
  cases b with
  | true =>
    obtain ⟨rfl, rfl⟩ := gives_pure.mp h
    exact ⟨.same hb, rfl⟩
  | false =>
    obtain ⟨a, _, hg, h⟩ := gives_bind.mp h
    obtain ⟨ha, rfl⟩ := gives_ofFault.mp hg
    cases a with
    | some adopted =>
      obtain ⟨rfl, rfl⟩ := gives_pure.mp h
      exact ⟨.adopted (adopt_eq_some ha), rfl⟩
    | none =>
      obtain ⟨c, _, hg, h⟩ := gives_bind.mp h
      obtain ⟨hc, rfl⟩ := gives_lift.mp hg
      obtain ⟨b, hb', hc⟩ := Traced.bind_ok.mp hc
      rw [Failure.ofTraced_outcome_ok] at hb'
      -- the search starts with the comparison that has failed already
      obtain rfl : false = b := Except.ok.inj (hb.symm.trans hb')
      obtain ⟨found, hf, hc⟩ := Traced.bind_ok.mp hc
      rw [Failure.ofTraced_outcome_ok] at hf
      cases found with
      | chain c' tied =>
        cases tied with
        | true => cases hc
        | false =>
          obtain rfl := Traced.pure_ok.mp hc
          obtain ⟨_, _, hs, h⟩ := gives_bind.mp h
          obtain ⟨rfl, -⟩ := gives_spend.mp hs
          obtain ⟨rfl, rfl⟩ := gives_pure.mp h
          exact ⟨.chain hb hf, rfl⟩
      | unreachable =>
        cases mandatory with
        | true => cases hc
        | false =>
          obtain rfl := Traced.pure_ok.mp hc
          obtain ⟨rfl, rfl⟩ := gives_pure.mp h
          exact ⟨.kept rfl, rfl⟩

/-- Nothing is converted where nothing or `Void` is expected. -/
theorem meet_gives {expected : Expected} (h : (e.meet scope limit expected).Gives p e' q) :
    q.slots = p.slots ∧ ((e' = e ∧ ∀ t, expected.type? = some t → t.isVoid = true) ∨
      ∃ t, expected.type? = some t ∧ t.isVoid = false ∧
        Converted scope t expected.isRequired false e e') := by
  unfold meet at h
  split at h
  · next t ht =>
    split at h
    · next hv =>
      obtain ⟨rfl, rfl⟩ := gives_pure.mp h
      refine ⟨rfl, .inl ⟨rfl, ?_⟩⟩
      rintro t' ht'
      cases ht.symm.trans ht'
      exact hv
    · next hv =>
      obtain ⟨hc, hq⟩ := convert_gives h
      exact ⟨hq, .inr ⟨t, ht, Bool.not_eq_true _ ▸ hv, hc⟩⟩
  · next ht =>
    obtain ⟨rfl, rfl⟩ := gives_pure.mp h
    refine ⟨rfl, .inl ⟨rfl, ?_⟩⟩
    rintro t' ht'
    cases ht.symm.trans ht'

theorem decay_gives (h : (e.decay scope limit).Gives p e' q) :
    q.slots = p.slots ∧ ((e' = e ∧ e.type.isFlagged = false) ∨
      Converted scope e.type.bare true false e e') := by
  unfold decay at h
  split at h
  · obtain ⟨hc, hq⟩ := convert_gives h
    exact ⟨hq, .inr hc⟩
  · next hf =>
    obtain ⟨rfl, rfl⟩ := gives_pure.mp h
    exact ⟨rfl, .inl ⟨rfl, Bool.not_eq_true _ ▸ hf⟩⟩

end Typed

/-! ### Overloads -/

/-! ### Expressions -/

theorem Overload.parameter_eq_ok {o : Overload} {i : Nat} {t : Ty} (h : o.parameter i = .ok t) :
    o.parameters[i]? = some t := by
  unfold parameter at h
  split at h
  · next h' =>
    cases h
    exact h'
  · cases h

/-- A literal is a number of the smallest type for it, a boolean or null. -/
theorem Literal.typed_gives {scope : Scope} {span : Span} {l : Literal} {e : Typed} {p q : Progress}
    (h : (l.typed scope span).Gives p e q) :
    p = q ∧ ((∃ n r, Range.literal (Builtin.smallestUnsigned n) n = .ok r ∧
        e = .plain (.constant (.integer n)) (Builtin.smallestUnsigned n) r span) ∨
      (∃ b, e = .plain (.constant (.bool b)) Builtin.bool (.bools (.exactly b)) span) ∨
      ∃ r, e = .plain (.constant .null) (.pointerTo Builtin.void) r span) := by
  cases l with
  | number text =>
    simp only [typed] at h
    split at h
    · exact absurd h not_gives_fail
    · next n hn =>
      obtain ⟨r, _, hg, h⟩ := gives_bind.mp h
      obtain ⟨hr, rfl⟩ := gives_ofFault.mp hg
      obtain ⟨rfl, rfl⟩ := gives_pure.mp h
      exact ⟨rfl, .inl ⟨n, r, hr, rfl⟩⟩
  | bool b =>
    obtain ⟨rfl, rfl⟩ := gives_pure.mp h
    exact ⟨rfl, .inr (.inl ⟨b, rfl⟩)⟩
  | null =>
    obtain ⟨r, _, hg, h⟩ := gives_bind.mp h
    obtain ⟨hr, rfl⟩ := gives_ofFault.mp hg
    obtain ⟨rfl, rfl⟩ := gives_pure.mp h
    exact ⟨rfl, .inr (.inr ⟨r, rfl⟩)⟩

namespace Typed

variable {scope : Scope} {limit : Weight} {e e' : Typed} {p q : Progress} {span : Span}
  {name : String} {expected : Expected} {operand : Typed}

theorem ofName_gives (h : (ofName scope span name).Gives p e q) :
    p = q ∧ ∃ v, scope.lookupSymbol name = some (.variable v) ∧
      e = .plain (.variable v.slot v.name) v.type.asReference v.range span := by
  unfold ofName at h
  split at h
  · next v hv =>
    obtain ⟨rfl, rfl⟩ := gives_pure.mp h
    exact ⟨rfl, v, hv, rfl⟩
  · exact absurd h not_gives_fail
  · exact absurd h not_gives_fail

theorem mem_of_operatorCandidates {op : Operator} {c : Candidate Overload}
    (h : c ∈ operatorCandidates scope op) :
    c.value ∈ scope.world.overloads ∧ c.value.operator = op := by
  obtain ⟨o, ho, rfl⟩ := List.mem_map.mp h
  obtain ⟨ho, hop⟩ := List.mem_filter.mp ho
  exact ⟨ho, of_decide_eq_true hop⟩

theorem operatorRange_gives {o : Overload} {operands : List Range} {r : Range}
    (h : (operatorRange o operands span).Gives p r q) :
    p = q ∧ o.transfer.apply o.result operands = .ok (.ok r) := by
  obtain ⟨x, _, hx, h⟩ := gives_bind.mp h
  obtain ⟨ha, rfl⟩ := gives_ofFault.mp hx
  cases x with
  | ok r' =>
    obtain ⟨rfl, rfl⟩ := gives_pure.mp h
    exact ⟨rfl, ha⟩
  | error v => exact absurd h not_gives_fail

/-- An operator of one operand: its overload and the converted operand. -/
theorem unary_gives {op : UnaryOp} (h : (unary scope limit expected span op operand).Gives p e q) :
    q.slots = p.slots ∧ ∃ o ∈ scope.world.overloads, ∃ t operand' r,
      o.operator = .unary op ∧ o.parameters[0]? = some t ∧
      Converted scope t true false operand operand' ∧
      o.transfer.apply o.result [operand'.range] = .ok (.ok r) ∧
      e = .plain (.unary op operand') o.result r span := by
  obtain ⟨c, _, hg, h⟩ := gives_bind.mp h
  obtain ⟨hc, rfl⟩ := gives_ofTraced.mp hg
  cases c with
  | ambiguous | none => exact absurd h not_gives_fail
  | unique o =>
    obtain ⟨c, hm, rfl⟩ := Candidate.choose_unique hc
    obtain ⟨ho, hop⟩ := mem_of_operatorCandidates hm
    obtain ⟨t, _, hg, h⟩ := gives_bind.mp h
    obtain ⟨ht, rfl⟩ := gives_ofFault.mp hg
    obtain ⟨operand', _, hg, h⟩ := gives_bind.mp h
    obtain ⟨hconv, hs⟩ := convert_gives hg
    obtain ⟨r, _, hg, h⟩ := gives_bind.mp h
    obtain ⟨rfl, hr⟩ := operatorRange_gives hg
    obtain ⟨rfl, rfl⟩ := gives_pure.mp h
    exact ⟨hs, c.value, ho, t, operand', r, hop, Overload.parameter_eq_ok ht, hconv, hr, rfl⟩

/-- An operator of two operands: its overload and the converted operands. -/
theorem binary_gives {op : BinaryOp} {left right : Typed}
    (h : (binary scope limit expected span op left right).Gives p e q) :
    q.slots = p.slots ∧ ∃ o ∈ scope.world.overloads, ∃ t u left' right' r,
      o.operator = .binary op ∧ o.parameters[0]? = some t ∧ o.parameters[1]? = some u ∧
      Converted scope t true false left left' ∧ Converted scope u true false right right' ∧
      o.transfer.apply o.result [left'.range, right'.range] = .ok (.ok r) ∧
      e = .plain (.binary op left' right' t) o.result r span := by
  obtain ⟨c, _, hg, h⟩ := gives_bind.mp h
  obtain ⟨hc, rfl⟩ := gives_ofTraced.mp hg
  cases c with
  | ambiguous | none => exact absurd h not_gives_fail
  | unique o =>
    obtain ⟨c, hm, rfl⟩ := Candidate.choose_unique hc
    obtain ⟨ho, hop⟩ := mem_of_operatorCandidates hm
    obtain ⟨t, _, hg, h⟩ := gives_bind.mp h
    obtain ⟨ht, rfl⟩ := gives_ofFault.mp hg
    obtain ⟨left', _, hg, h⟩ := gives_bind.mp h
    obtain ⟨hleft, hs⟩ := convert_gives hg
    obtain ⟨u, _, hg, h⟩ := gives_bind.mp h
    obtain ⟨hu, rfl⟩ := gives_ofFault.mp hg
    obtain ⟨right', _, hg, h⟩ := gives_bind.mp h
    obtain ⟨hright, hs'⟩ := convert_gives hg
    obtain ⟨r, _, hg, h⟩ := gives_bind.mp h
    obtain ⟨rfl, hr⟩ := operatorRange_gives hg
    obtain ⟨rfl, rfl⟩ := gives_pure.mp h
    exact ⟨hs'.trans hs, c.value, ho, t, u, left', right', r, hop, Overload.parameter_eq_ok ht,
      Overload.parameter_eq_ok hu, hleft, hright, hr, rfl⟩

theorem addressOf_gives (h : (addressOf span operand).Gives p e q) :
    p = q ∧ operand.type.isReference = true ∧
      e = .plain (.addressOf operand) (.pointerTo operand.type.notReference)
        (.pointer operand.range (.exactly true)) span := by
  unfold addressOf at h
  split at h
  · next hr =>
    obtain ⟨rfl, rfl⟩ := gives_pure.mp h
    exact ⟨rfl, hr, rfl⟩
  · exact absurd h not_gives_fail

/-- A pointer that is stored somewhere is loaded before it is followed. -/
theorem dereference_gives (h : (dereference scope limit span operand).Gives p e q) :
    q.slots = p.slots ∧ ∃ pointed operand' r, operand.type.pointed? = some pointed ∧
      ((operand' = operand ∧ operand.type.isFlagged = false) ∨
        Converted scope operand.type.bare true false operand operand') ∧
      e = .plain (.dereference operand') pointed.asReference r span ∧
      ((∃ initialized, operand'.range = .pointer r initialized) ∨ r = scope.rangeOf pointed) := by
  unfold dereference at h
  split at h
  · exact absurd h not_gives_fail
  · next pointed hp =>
    obtain ⟨operand', _, hg, h⟩ := gives_bind.mp h
    obtain ⟨hs, hd⟩ := decay_gives hg
    split at h
    · next hr =>
      split at h
      · obtain ⟨rfl, rfl⟩ := gives_pure.mp h
        exact ⟨hs, pointed, operand', _, hp, hd, rfl, .inl ⟨_, hr⟩⟩
      · exact absurd h not_gives_fail
    · obtain ⟨rfl, rfl⟩ := gives_pure.mp h
      exact ⟨hs, pointed, operand', _, hp, hd, rfl, .inr rfl⟩

theorem assignable_gives {target : Typed} {t : Ty} (h : (assignable span target).Gives p t q) :
    p = q ∧ target.type.isReference = true ∧ target.type.isMutable = true ∧
    t = target.type.bare := by
  unfold assignable at h
  split at h
  · exact absurd h not_gives_fail
  · next hr =>
    split at h
    · exact absurd h not_gives_fail
    · next hm =>
      obtain ⟨rfl, rfl⟩ := gives_pure.mp h
      simp only [Bool.not_eq_true', Bool.not_eq_false] at hr hm
      exact ⟨rfl, hr, hm, rfl⟩

/-- Arguments that are each converted to the parameter they are passed for. -/
inductive Passed (scope : Scope) : List Typed → List Ty → List Typed → Prop
  | nil : Passed scope [] [] []
  | cons {e e' : Typed} {es es' : List Typed} {t : Ty} {ts : List Ty}
      (first : Converted scope t.bare true false e e') (rest : Passed scope es ts es') :
      Passed scope (e :: es) (t :: ts) (e' :: es')

/-- Arguments are converted one by one. -/
theorem passAll_gives :
    ∀ {es : List Typed} {ts : List Ty} {es' : List Typed} {p q : Progress},
      es.length = ts.length → (passAll scope limit es ts).Gives p es' q →
      q.slots = p.slots ∧ Passed scope es ts es'
  | [], [], es', p, q, _, h => by
    obtain ⟨rfl, rfl⟩ := gives_pure.mp h
    exact ⟨rfl, .nil⟩
  | [], _ :: _, _, _, _, hl, _ | _ :: _, [], _, _, _, hl, _ => by cases hl
  | e :: es, t :: ts, es', p, q, hl, h => by
    obtain ⟨first, _, hg, h⟩ := gives_bind.mp h
    obtain ⟨hc, hs⟩ := convert_gives hg
    obtain ⟨rest, _, hg, h⟩ := gives_bind.mp h
    obtain ⟨hs', hrest⟩ := passAll_gives (Nat.succ.inj hl) hg
    obtain ⟨rfl, rfl⟩ := gives_pure.mp h
    exact ⟨hs'.trans hs, .cons hc hrest⟩

theorem calledFunctions_gives {ids : List Nat}
    (h : (calledFunctions scope span name).Gives p ids q) :
    p = q ∧ scope.lookupSymbol name = some (.functions ids) := by
  unfold calledFunctions at h
  split at h
  · next hl =>
    obtain ⟨rfl, rfl⟩ := gives_pure.mp h
    exact ⟨rfl, hl⟩
  · exact absurd h not_gives_fail
  · exact absurd h not_gives_fail

/-- A call: its function and the converted arguments. -/
theorem call_gives {ids : List Nat} {arguments : List Typed}
    (h : (call scope limit expected span name ids arguments).Gives p e q) :
    q.slots = p.slots ∧ ∃ id ∈ ids, ∃ c arguments', scope.callee? id = some c ∧
      Passed scope arguments c.prototype.signature.parameters arguments' ∧
      e = .plain (.call c arguments') c.prototype.signature.result
        (scope.rangeOf c.prototype.signature.result) span := by
  obtain ⟨callees, _, hg, h⟩ := gives_bind.mp h
  obtain ⟨hm, rfl⟩ := gives_ofFault.mp hg
  obtain ⟨choice, _, hg, h⟩ := gives_bind.mp h
  obtain ⟨hc, rfl⟩ := gives_ofTraced.mp hg
  cases choice with
  | ambiguous | none => exact absurd h not_gives_fail
  | unique c =>
    obtain ⟨candidate, hcand, rfl⟩ := Candidate.choose_unique hc
    obtain ⟨c, hcallee, rfl⟩ := List.mem_map.mp hcand
    obtain ⟨hcallee, hl⟩ := List.mem_filter.mp hcallee
    obtain ⟨id, hid, hc⟩ := mem_of_mapM_eq_ok hm c hcallee
    obtain ⟨arguments', _, hg, h⟩ := gives_bind.mp h
    obtain ⟨hs, hpass⟩ := passAll_gives (beq_iff_eq.mp hl).symm hg
    obtain ⟨rfl, rfl⟩ := gives_pure.mp h
    exact ⟨hs, id, hid, c, arguments', Scope.callee_eq_ok hc, hpass, rfl⟩

/-- A block has the type of its last expression, or is taken for what is expected if it returns, or
is `Void`. -/
theorem block_cases (scope : Scope) (expected : Expected) (span : Span) (ss : List TypedStmt)
    (result : Option Typed) :
    (∃ r, result = some r ∧
        block scope expected span ss result = .plain (.block ss (some r)) r.type r.range span) ∨
      (result = none ∧ ∃ t, expected.type? = some t ∧ (Node.block ss none).diverges = true ∧
        block scope expected span ss result = .plain (.block ss none) t (scope.rangeOf t) span) ∨
      (result = none ∧ ((Node.block ss none).diverges = true → expected.type? = none) ∧
        block scope expected span ss result =
          .plain (.block ss none) Builtin.void .void span) := by
  unfold block
  cases result with
  | some r => exact .inl ⟨r, rfl, rfl⟩
  | none =>
    cases ht : expected.type? with
    | none => exact .inr (.inr ⟨rfl, fun _ => rfl, rfl⟩)
    | some t =>
      by_cases hd : (Node.block ss none).diverges = true
      · exact .inr (.inl ⟨rfl, t, rfl, hd, if_pos hd⟩)
      · exact .inr (.inr ⟨rfl, fun h => absurd h hd, if_neg hd⟩)

end Typed

/-! ### Statements -/

namespace TypedStmt

variable {scope scope' : Scope} {p q : Progress} {span : Span} {s : TypedStmt}

/-- The range that a variable is known to have: what can be written to may hold any value. -/
def definedRange (scope : Scope) (type : Ty) (init : Option Typed) : Range :=
  match init with
  | some value => if type.isMutable then scope.rangeOf type else value.range
  | none => scope.rangeOf type

/-- A definition takes the next slot. -/
theorem defineIn_gives {name : String} {type : Ty} {init : Option Typed}
    (h : (defineIn scope span name type init).Gives p (s, scope') q) :
    type.isVoid = false ∧ s = .define p.slots name type init ∧ q = { p with slots := p.slots + 1 } ∧
      scope.addVariable ⟨name, type, definedRange scope type init, p.slots⟩ span.start =
        .ok scope' := by
  dsimp only [defineIn] at h
  by_cases hv : type.isVoid = true
  · rw [if_pos hv] at h
    obtain ⟨_, _, hf, -⟩ := gives_bind.mp h
    exact absurd hf not_gives_fail
  · rw [if_neg hv] at h
    obtain ⟨slot, _, hg, h⟩ := gives_bind.mp h
    obtain ⟨rfl, rfl⟩ := gives_newSlot.mp hg
    obtain ⟨scope₁, _, hg, h⟩ := gives_bind.mp h
    obtain ⟨ha, rfl⟩ := gives_ofError.mp hg
    obtain ⟨he, rfl⟩ := gives_pure.mp h
    cases he
    exact ⟨Bool.not_eq_true _ ▸ hv, rfl, rfl, ha⟩

theorem returnType_gives {t : Ty} (h : (returnType scope span).Gives p t q) :
    p = q ∧ scope.returnType? = some t := by
  unfold returnType at h
  split at h
  · next ht =>
    obtain ⟨rfl, rfl⟩ := gives_pure.mp h
    exact ⟨rfl, ht⟩
  · exact absurd h not_gives_fail

/-- A result may be left out only if it is `Void`, which takes no other value. -/
theorem retOf_gives {t : Ty} {value : Option Typed} (h : (retOf span t value).Gives p s q) :
    p = q ∧ s = .ret value ∧ match value with
      | none => t.isVoid = true
      | some v => t.isVoid = true → v.type.isVoid = true := by
  cases value with
  | none =>
    simp only [retOf] at h
    split at h
    · next ht =>
      obtain ⟨rfl, rfl⟩ := gives_pure.mp h
      exact ⟨rfl, rfl, ht⟩
    · exact absurd h not_gives_fail
  | some v =>
    simp only [retOf] at h
    split at h
    · exact absurd h not_gives_fail
    · next hv =>
      obtain ⟨rfl, rfl⟩ := gives_pure.mp h
      refine ⟨rfl, rfl, fun ht => ?_⟩
      simpa [ht] using hv

end TypedStmt

end Gauge
