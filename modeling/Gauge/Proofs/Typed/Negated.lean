import Gauge.Proofs.Numeral
import Gauge.Proofs.Typed.Scoring

/-!
# Proofs — negative numbers as they are written

A negative number is written as a minus sign and a literal.  The literal alone has an unsigned type;
where the number fits the expected signed type, it is taken for one of that type and negated there.
The least value of a type does not fit it without its sign, so it is negated in a wider type and
then narrowed; the least value of the widest type cannot be written.

Main statement: `Builtin.negative_written`.
-/

namespace Gauge

/-! ### Numerals -/

theorem hasBaseMark_of_digits {cs : List Char} (hd : ∀ c ∈ cs, c.isDigit = true) :
    Literal.hasBaseMark cs = false := by
  unfold Literal.hasBaseMark
  split
  · next c _ _ =>
    have hc := hd c (by simp)
    simp only [List.contains_eq_mem, decide_eq_false_iff_not]
    intro mark
    simp only [List.mem_cons, List.not_mem_nil, or_false] at mark
    rcases mark with rfl | rfl | rfl | rfl | rfl | rfl <;> cases hc
  · rfl

/-- A number is read as it is written. -/
theorem Literal.readNumber_toString {n : Nat} (h : n < 2 ^ 64) :
    readNumber (toString n) = .ok n := by
  have digits : ∀ c ∈ (toString n).toList, c.isDigit = true := fun c => isDigit_of_mem_toString
  have all : (toString n).toList.all (fun c => (digitValue? c).isSome) = true :=
    List.all_eq_true.mpr fun c hc => by rw [digitValue?_of_isDigit (digits c hc)]; rfl
  have read : readNumeral 0xFFFFFFFFFFFFFFFF (toString n).toList = .ok n :=
    readNumeral_eq_ok_iff.mpr ⟨numeral_toString n, by omega⟩
  simp only [readNumber, hasBaseMark_of_digits digits, all, read, Bool.not_true,
    Bool.false_eq_true, if_false]

/-! ### Negation -/

namespace Builtin

variable {t u : Ty} {low high : Int} {n : Nat} {span inner : Span} {p : Progress}

/-- The overload of `-` on a type. -/
def negation (t : Ty) : Overload := ⟨.unary .negate, [t], t, .negate⟩

theorem negate_candidates (limits : Limits) :
    Typed.operatorCandidates (Scope.standard limits) (.unary .negate) =
      signed.map fun t => ⟨negation t, t, [t]⟩ := rfl

theorem mem_integers_of_signed (h : t ∈ signed) : t ∈ integers := List.mem_append_right _ h

theorem isSigned_of_mem (h : t ∈ signed) : t.isSigned = true := by
  have : ∀ t ∈ signed, t.isSigned = true := by decide
  exact this t h

theorem native_of_signed (h : t ∈ signed) {K : StructRef → Prop} : t.Native K :=
  Ty.native_of_mem (mem_all_of_integers (mem_integers_of_signed h))

/-- What a number weighs as an operand of each overload. -/
theorem number_weighs (inner : Span) (hn : n < 2 ^ 64) : ∃ weight : Ty → Option Weight,
    (∀ u ∈ signed, (Typed.conversionWeights (Scope.standard .standard) .zero
      [.number n inner] [u]).outcome = .ok (weight u)) ∧
    ∀ u ∈ signed, ∀ low high, u.bounds? = some (low, high) → (n : Int) ≤ high →
      (weight u).isSome = true := by
  have answers : ∀ u ∈ signed, ∃ weight,
      ((Typed.number n inner).conversionWeight (Scope.standard .standard) u).outcome = .ok weight ∧
      (weight.isSome = true ↔ (Typed.number n inner).Fits (Scope.standard .standard) u) := by
    intro u hu
    exact standard_converts.conversionWeight_isSome_iff (number_bounded hn)
      (native_of_signed hu).toOver
  choose! weight weighs fits using answers
  refine ⟨fun u => (weight u).map (Weight.zero + ·), ?_, ?_⟩
  · intro u hu
    exact Typed.conversionWeights_single (weighs u hu)
  · intro u hu low high hb hh
    simpa using (fits u hu).mpr (number_fits (mem_integers_of_signed hu) rfl hb hh)

theorem compare_signed {scope : Scope} (hu : u ∈ signed) (ht : t ∈ signed) :
    (scope.compare u t).outcome = .ok (decide (u = t)) := by
  obtain ⟨same, hsame, hiff⟩ := Structs.compare_native (s := scope.structs) distinct_none
    (native_of_signed hu) (native_of_signed ht)
  rw [Scope.compare, hsame]
  congr 1
  exact Bool.eq_iff_iff.mpr (hiff.trans (decide_eq_true_iff).symm)

theorem plain_of_signed (h : t ∈ signed) : t.isVoid = false ∧ t.bare = t := by
  have : ∀ t ∈ signed, t.isVoid = false ∧ t.bare = t := by decide
  exact this t h

/-- The overload of `-` that is chosen for a number where a type is expected. -/
def chosenNegation (n : Nat) (span : Span) (t : Ty) : Except Fault (Choice Overload) :=
  (Candidate.choose (Scope.standard .standard)
    (Typed.operatorCandidates (Scope.standard .standard) (.unary .negate))
    [.number n span] (some t)).outcome

/-- Where the number fits the expected type, it is negated in that type. -/
theorem chosenNegation_fitting (hn : n < 2 ^ 64) (ht : t ∈ signed)
    (hb : t.bounds? = some (low, high)) (hh : (n : Int) ≤ high) :
    chosenNegation n inner t = .ok (.unique (negation t)) := by
  obtain ⟨weight, weighs, some⟩ := number_weighs inner hn
  obtain ⟨w, hw⟩ := Option.isSome_iff_exists.mp (some t ht low high hb hh)
  -- of the overloads that can be chosen, one gives the type
  have one : (signed.map fun t => (⟨negation t, t, [t]⟩ : Candidate Overload)).filter
      (fun c => decide (c.result = t)) = [⟨negation t, t, [t]⟩] := by
    have : ∀ t ∈ signed, signed.filter (fun u => decide (u = t)) = [t] := by decide
    rw [List.filter_map]
    exact congrArg _ (this t ht)
  rw [chosenNegation, negate_candidates, Candidate.choose_of_weights (fun c => weight c.result)
    (fun c => decide (c.result = t)) (plain_of_signed ht).1, one]
  · simp only [Candidate.weighed, List.filterMap_cons, List.filterMap_nil, hw]
    rfl
  · intro c hc
    obtain ⟨u, hu, rfl⟩ := List.mem_map.mp hc
    exact weighs u hu
  · intro c hc
    obtain ⟨u, hu, rfl⟩ := List.mem_map.mp hc
    rw [(plain_of_signed ht).2]
    exact compare_signed hu ht

/-- A number that a signed type holds is adopted by it. -/
theorem number_adopt {scope : Scope} (hu : u ∈ signed) (hb : u.bounds? = some (low, high))
    (hh : (n : Int) ≤ high) : (Typed.number n inner).adopt scope u =
      .ok (some (.plain (.constant (.integer n)) u (.signed n n) inner)) := by
  have hw := word_of_mem (mem_all_of_integers (mem_integers_of_signed hu))
  have low_le := Ty.low_le_high hb
  have range : Range.literal u n = .ok (.signed n n) := by
    rw [Range.literal, Ty.not_bool_of_bounds hb]
    exact Range.integer_signed hw hb (isSigned_of_mem hu) (by omega) (le_refl _) hh
  have holds : u.isInteger = true ∧ u.isFlagged = false := by
    have : ∀ u ∈ signed, u.isInteger = true ∧ u.isFlagged = false := by decide
    exact this u hu
  simp only [Typed.adopt, Typed.number, Typed.plain, Typed.facts, Typed.node, holds.2, hb, range]
  rw [if_neg (by decide), if_pos ⟨holds.1, hh⟩]
  rfl

/-- A literal negated in a type that holds it. -/
def negated (n : Nat) (u : Ty) (span inner : Span) : Typed :=
  .plain (.unary .negate (.plain (.constant (.integer n)) u (.signed n n) inner)) u
    (.signed (-n) (-n)) span

/-- The negation of a number that the chosen type holds. -/
theorem natural_negation (hu : u ∈ signed) (hb : u.bounds? = some (low, high))
    (hh : (n : Int) ≤ high) (hc : chosenNegation n inner t = .ok (.unique (negation u))) :
    ((Expr.prefixed span .negate (.literal inner (.number (toString n)))).natural
      (Scope.standard .standard) (Scope.standard .standard).expressionLimit (.required t)).Gives p
        (negated n u span inner) p := by
  let scope := Scope.standard .standard
  have hw := word_of_mem (mem_all_of_integers (mem_integers_of_signed hu))
  obtain ⟨hlow, hhigh⟩ := Ty.signed_bounds_word hw hb (isSigned_of_mem hu)
  have least := Ty.signed_bounds hb (isSigned_of_mem hu)
  -- the literal is unsigned before it is taken for a number of the type
  have unlike : (scope.compare (Typed.number n inner).type u).outcome = .ok false := by
    have native : (smallestUnsigned n).Native fun _ => False :=
      Ty.native_of_mem (smallestUnsigned_mem_all n)
    obtain ⟨same, hsame, hiff⟩ := Structs.compare_native (s := scope.structs) distinct_none
      native (native_of_signed hu)
    cases same with
    | false => exact hsame
    | true =>
      have signless := isSigned_smallestUnsigned n
      have same : smallestUnsigned n = u := hiff.mp rfl
      rw [same, isSigned_of_mem hu] at signless
      cases signless
  have range : Transfer.negate.apply u [.signed n n] = .ok (.ok (.signed (-n) (-n))) := by
    have negated : Range.negate u (.signed n n) = .ok (.signed (-n) (-n)) := by
      simp only [Range.negate, Range.operandBounds, Range.bounds?, ok_bind, Range.exactOrFull,
        Range.resultBounds, hb]
      rw [if_pos (by omega)]
      exact Range.integer_signed hw hb (isSigned_of_mem hu) (by omega) (le_refl _) (by omega)
    exact map_eq_ok.mpr ⟨_, negated, rfl⟩
  have literal : ((Expr.literal inner (.number (toString n))).natural scope
      scope.expressionLimit .anything).Gives p (.number n inner) p := by
    rw [Expr.natural]
    exact Literal.typed_number_gives (Literal.readNumber_toString (by omega))
  rw [Expr.natural]
  refine Check.gives_bind.mpr ⟨_, p, literal, ?_⟩
  refine Check.gives_bind.mpr ⟨_, p, Check.gives_ofTraced.mpr ⟨hc, rfl⟩, ?_⟩
  refine Check.gives_bind.mpr ⟨u, p, Check.gives_ofFault.mpr ⟨rfl, rfl⟩, ?_⟩
  refine Check.gives_bind.mpr
    ⟨_, p, Typed.convert_gives_adopted unlike (number_adopt hu hb hh), ?_⟩
  refine Check.gives_bind.mpr ⟨.signed (-n) (-n), p, ?_, Check.gives_pure.mpr ⟨rfl, rfl⟩⟩
  exact Check.gives_bind.mpr
    ⟨_, p, Check.gives_ofFault.mpr ⟨range, rfl⟩, Check.gives_pure.mpr ⟨rfl, rfl⟩⟩

/-! ### The least values -/

/-- The least values that are written in a wider type: the number without its sign, its type and the
type it is negated in. -/
def narrowed : List (Nat × Ty × Ty) :=
  [(2 ^ 7, s8, s16), (2 ^ 15, s16, s32), (2 ^ 31, s32, s64)]

/-- What a choice comes to: the type that the chosen overload gives, if there is one to choose. -/
def outcomeOf : Choice Overload → Option (Option Ty)
  | .unique o => some (some o.result)
  | .none => some none
  | .ambiguous => none

theorem chosenNegation_span (n : Nat) (span : Span) (t : Ty) :
    chosenNegation n span t = chosenNegation n .null t :=
  congrArg Traced.outcome (Candidate.choose_congr rfl)

/-- Without its sign the least value of a type does not fit it, and is negated in the next type. -/
theorem chosenNegation_narrowed (h : (n, t, u) ∈ narrowed) :
    chosenNegation n inner t = .ok (.unique (negation u)) := by
  have found : ∀ x ∈ narrowed,
      (chosenNegation x.1 .null x.2.1).toOption.map outcomeOf = some (some (some x.2.2)) := by
    decide +kernel
  obtain ⟨choice, hchoice, hresult⟩ := eq_ok_of_map (found _ h)
  rw [chosenNegation_span, hchoice]
  cases choice with
  | unique o =>
    obtain ⟨c, hc, rfl⟩ := Candidate.choose_unique hchoice
    rw [negate_candidates] at hc
    obtain ⟨v, -, rfl⟩ := List.mem_map.mp hc
    obtain rfl : v = u := by
      injection hresult with hresult
      injection hresult
    rfl
  | ambiguous | none => cases hresult

/-- The least value of the widest type fits none. -/
theorem chosenNegation_least : chosenNegation (2 ^ 63) inner s64 = .ok .none := by
  have found : (chosenNegation (2 ^ 63) .null s64).toOption.map outcomeOf = some (some none) := by
    decide +kernel
  obtain ⟨choice, hchoice, hresult⟩ := eq_ok_of_map found
  rw [chosenNegation_span, hchoice]
  cases choice with
  | none => rfl
  | _ => cases hresult

/-- The chain that narrows a least value, if there is one. -/
def narrowing (n : Nat) (t u : Ty) : Option Chain :=
  match (casts.search .empty u (.signed (-n) (-n)) ⟨t, false, ⟨8, 64⟩⟩).outcome with
  | .ok (.chain c false) => some c
  | _ => none

/-- A least value is narrowed without loss, and within the limit. -/
theorem search_narrowed (h : (n, t, u) ∈ narrowed) :
    ∃ c, (casts.search .empty u (.signed (-n) (-n)) ⟨t, false, ⟨8, 64⟩⟩).outcome =
        .ok (.chain c false) ∧
      (⟨256, 4096⟩ : Weight).lt (.zero + c.weight) = false ∧ Step.typeAfter u c.steps = t ∧
      Step.rangeAfter (.signed (-n) (-n)) c.steps = .signed (-n) (-n) := by
  have found : ∀ x ∈ narrowed, (narrowing x.1 x.2.1 x.2.2).map (fun c =>
      ((⟨256, 4096⟩ : Weight).lt (.zero + c.weight), Step.typeAfter x.2.2 c.steps,
        Step.rangeAfter (.signed (-x.1) (-x.1)) c.steps)) =
      some (false, x.2.1, .signed (-x.1) (-x.1)) := by
    decide +kernel
  obtain ⟨c, hc, hfacts⟩ := Option.map_eq_some_iff.mp (found _ h)
  obtain ⟨hlimit, hrest⟩ := Prod.mk.inj hfacts
  obtain ⟨htype, hrange⟩ := Prod.mk.inj hrest
  refine ⟨c, ?_, hlimit, htype, hrange⟩
  unfold narrowing at hc
  split at hc
  · cases hc
    assumption
  · cases hc

/-! ### All negative numbers -/

/-- The check of a negative number where a type is required, in the outermost scope.  It is written
as a minus sign and a literal. -/
def checkWritten (v : Int) (span inner : Span) (t : Ty) : Check Typed :=
  (Expr.prefixed span .negate (.literal inner (.number (toString v.natAbs)))).check
    (Scope.standard .standard) (Scope.standard .standard).expressionLimit (.required t)

variable {v : Int} {slots : Nat}

theorem checkWritten_fitting (ht : t ∈ signed) (hb : t.bounds? = some (low, high))
    (hh : (v.natAbs : Int) ≤ high) :
    (checkWritten v span inner t).Gives p (negated v.natAbs t span inner) p := by
  have hw := word_of_mem (mem_all_of_integers (mem_integers_of_signed ht))
  obtain ⟨-, hhigh⟩ := Ty.signed_bounds_word hw hb (isSigned_of_mem ht)
  refine Check.gives_bind.mpr
    ⟨_, p, natural_negation ht hb hh (chosenNegation_fitting (by omega) ht hb hh), ?_⟩
  rw [Typed.meet_required (plain_of_signed ht).1]
  refine Typed.convert_gives_same ((compare_signed ht ht).trans ?_)
  simp

/-- A least value is negated in the next type and narrowed. -/
theorem checkWritten_narrowed (h : (v.natAbs, t, u) ∈ narrowed) :
    ∃ e q, (checkWritten v span inner t).Gives ⟨.zero, slots⟩ e q ∧ e.type = t ∧
      e.range = .signed (-v.natAbs) (-v.natAbs) := by
  have wider : ∀ x ∈ narrowed, x.2.1 ∈ signed ∧ x.2.2 ∈ signed ∧ x.2.2 ≠ x.2.1 ∧
      x.2.2.bounds?.map (fun b => decide ((x.1 : Int) ≤ b.2)) = some true := by decide +kernel
  obtain ⟨ht, hu, hne, hh⟩ := wider _ h
  obtain ⟨⟨low, high⟩, hb, hh⟩ := Option.map_eq_some_iff.mp hh
  obtain ⟨c, hc, hlimit, htype, hrange⟩ := search_narrowed h
  have unlike : ((Scope.standard .standard).compare u t).outcome = .ok false := by
    rw [compare_signed hu ht, decide_eq_false hne]
  refine ⟨(negated v.natAbs u span inner).attach c, ⟨.zero + c.weight, slots⟩, ?_, ?_, ?_⟩
  · refine Check.gives_bind.mpr ⟨_, _, natural_negation hu hb (of_decide_eq_true hh)
      (chosenNegation_narrowed h), ?_⟩
    rw [Typed.meet_required (plain_of_signed ht).1]
    refine Typed.convert_gives_chain unlike ?_ hc hlimit
    unfold Typed.adopt
    split
    · rfl
    · rfl
  · rw [Typed.type_attach]
    exact htype
  · rw [Typed.range_attach]
    exact hrange

/-- A number that no overload takes is refused. -/
theorem checkWritten_refused (hn : v.natAbs < 2 ^ 64)
    (hc : chosenNegation v.natAbs inner t = .ok .none) :
    ((checkWritten v span inner t).run p).outcome =
      .error (.error ⟨.noMatchingOverload "operator -", span.start⟩) := by
  have literal : ((Expr.literal inner (.number (toString v.natAbs))).natural
      (Scope.standard .standard) (Scope.standard .standard).expressionLimit .anything).Gives p
        (.number v.natAbs inner) p := by
    rw [Expr.natural]
    exact Literal.typed_number_gives (Literal.readNumber_toString hn)
  have chosen : (Check.ofTraced (Candidate.choose (Scope.standard .standard)
      (Typed.operatorCandidates (Scope.standard .standard) (.unary .negate))
      [.number v.natAbs inner] (Expected.required t).type?)).Gives p .none p :=
    Check.gives_ofTraced.mpr ⟨hc, rfl⟩
  rw [checkWritten, Expr.check, StateT.run_bind, Traced.outcome_bind, Expr.natural,
    StateT.run_bind, Traced.outcome_bind, literal, ok_bind, Typed.unary, StateT.run_bind,
    Traced.outcome_bind, chosen]
  rfl

/-- All types but the widest have a wider one to write their least value in. -/
theorem narrowed_of_low (ht : t ∈ signed) (hb : t.bounds? = some (low, high)) :
    (t = s64 ∧ low = -2 ^ 63) ∨ ∃ u, (low.natAbs, t, u) ∈ narrowed := by
  simp only [signed, List.mem_cons, List.not_mem_nil, or_false] at ht
  rcases ht with rfl | rfl | rfl | rfl
  · cases hb
    exact .inr ⟨s16, by decide⟩
  · cases hb
    exact .inr ⟨s32, by decide⟩
  · cases hb
    exact .inr ⟨s64, by decide⟩
  · cases hb
    exact .inl ⟨rfl, rfl⟩

/-- **Negative numbers can be written**, all but one: a minus sign and a literal, where a signed
type is required, are a single value of that type.  The least value of the widest type is refused,
for no type holds it without its sign. -/
theorem negative_written (t : Ty) (ht : t ∈ signed) (v : Int) (hv : t.Admits v) (hneg : v < 0)
    (span inner : Span) (slots : Nat) :
    (v ≠ -2 ^ 63 → ∃ e q, (checkWritten v span inner t).Gives ⟨.zero, slots⟩ e q ∧ e.type = t ∧
      e.range = .signed v v) ∧
    (v = -2 ^ 63 → ((checkWritten v span inner t).run ⟨.zero, slots⟩).outcome =
      .error (.error ⟨.noMatchingOverload "operator -", span.start⟩)) := by
  obtain ⟨low, high, hb⟩ := bounds_of_integers (mem_integers_of_signed ht)
  have hw := word_of_mem (mem_all_of_integers (mem_integers_of_signed ht))
  have word := Ty.signed_bounds_word hw hb (isSigned_of_mem ht)
  have least := Ty.signed_bounds hb (isSigned_of_mem ht)
  have inside := (Ty.admits_iff hb).mp hv
  have sign : -(v.natAbs : Int) = v := by omega
  by_cases hfits : (v.natAbs : Int) ≤ high
  · refine ⟨fun _ => ⟨_, _, checkWritten_fitting ht hb hfits, rfl, ?_⟩, fun h => by omega⟩
    exact congrArg (fun i => Range.signed i i) sign
  · -- the least value of its type
    obtain rfl : v = low := by omega
    rcases narrowed_of_low ht hb with ⟨rfl, hleast⟩ | ⟨u, hu⟩
    · refine ⟨fun h => absurd hleast h, fun _ => ?_⟩
      have abs : v.natAbs = 2 ^ 63 := by omega
      exact checkWritten_refused (by omega) (abs ▸ chosenNegation_least)
    · have wide : ∀ x ∈ narrowed, x.1 < 2 ^ 63 := by decide
      have := wide _ hu
      refine ⟨fun _ => ?_, fun h => by omega⟩
      obtain ⟨e, q, hg, htype, hrange⟩ := checkWritten_narrowed hu
      exact ⟨e, q, hg, htype, by rw [hrange, sign]⟩

/-- The least signed byte is written in two bytes and narrowed. -/
theorem negative_written_byte :
    (-128 : Int) < 0 ∧ ∃ e q, (checkWritten (-128) .null .null s8).Gives ⟨.zero, 0⟩ e q ∧
      e.type = s8 ∧ e.range = .signed (-128) (-128) := by
  have bounds : s8.bounds? = some (-128, 127) := rfl
  have admits : s8.Admits (-128) := (Ty.admits_iff bounds).mpr ⟨by decide, by decide⟩
  exact ⟨by decide, (negative_written s8 (by decide) (-128) admits (by decide) .null .null 0).1
    (by decide)⟩

/-- A value of the widest signed type that cannot be written. -/
theorem negative_unwritten : s64.Admits (-2 ^ 63) ∧
    ((checkWritten (-2 ^ 63) .null .null s64).run ⟨.zero, 0⟩).outcome =
      .error (.error ⟨.noMatchingOverload "operator -", .null⟩) := by
  have bounds : s64.bounds? = some (-2 ^ 63, 2 ^ 63 - 1) := rfl
  exact ⟨(Ty.admits_iff bounds).mpr ⟨by decide, by decide⟩,
    checkWritten_refused (by decide) chosenNegation_least⟩

end Builtin

end Gauge
