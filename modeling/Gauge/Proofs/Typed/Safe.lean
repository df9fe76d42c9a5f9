import Gauge.Proofs.Numeral
import Gauge.Proofs.Syntax.Cut
import Gauge.Proofs.Syntax.Extent
import Gauge.Proofs.Typed.Ranged

/-!
# Proofs — checking breaks no rule

In a scope whose names all make sense (`Scope.Sane`) checking an expression or a statement ends with
a typed tree or with an error of the program, and no conversion that the checker looks for is
ambiguous (`Expr.natural_safe`, `Block.natural_safe`).  The invariant of the trees is `Typed.Fit`:
all ranges suit their types.  So the types can be compared, the searches have one answer, the
operators are defined and the arms of a conditional can be merged.

Every error stands at the start of a part of the tree: a typed expression starts where the
expression it was made from does, and a conversion leaves it there (`Typed.FitAt`).
-/

namespace Gauge

open Check

/-! ### Conversions -/

namespace Typed

variable {K : StructRef → Prop} {L : Leeway} {result target : Ty} {scope : Scope} {limit : Weight}
  {mandatory explicit : Bool} {e e' : Typed}

/-- What is proved of an expression that was checked, with where it stands. -/
structure FitAt (L : Leeway) (s : Structs) (K : StructRef → Prop) (e : Typed) : Prop
    extends e.Fit s K where
  place : L e.position

theorem FitAt.plain {s : Structs} {n : Node} {t : Ty} {r : Range} {span : Span} (hp : L span.start)
    (ht : t.Native K) (hr : r.Suits s t) (hn : n.Ranged s) : (Typed.plain n t r span).FitAt L s K :=
  ⟨.plain ht hr hn, hp⟩

theorem Converted.position (h : Converted scope target mandatory explicit e e') :
    e'.position = e.position := by
  cases h with
  | adopted h => cases h <;> rfl
  | _ => rfl

/-- Whether a literal can be adopted is always known. -/
theorem adopt_defined (hs : scope.Sane K result) (ht : target.Native K) :
    ∃ r, e.adopt scope target = .ok r := by
  unfold adopt
  split
  · exact ⟨_, rfl⟩
  · split
    · next value _ =>
      split
      · next low high hb =>
        split
        · next hv =>
          have := Ty.low_le_high hb
          obtain ⟨r, hr, -⟩ : ∃ r, Range.literal target value = .ok r ∧
              r.Suits scope.structs target :=
            Range.literal_suits ht.word hb (by omega) hv.2
          exact ⟨_, by rw [hr]; rfl⟩
        · exact ⟨_, rfl⟩
      · exact ⟨_, rfl⟩
    · split
      · next hp =>
        obtain ⟨r, hr, -⟩ := Structs.nullRange_suits hs.structs ht hp
        exact ⟨_, by rw [hr]; rfl⟩
      · exact ⟨_, rfl⟩
    · exact ⟨_, rfl⟩

variable (hK : StructRef.Distinct K) (hs : scope.Sane K result)

include hK hs

/-- A conversion is found, or is an error at its place. -/
theorem resolve_safe
    (h : e.Apt scope.structs K) (ht : target.Native K) {position : Position} (hp : L position) :
    Failure.Safe L (fun _ => True) (scope.world.casts.resolve scope.structs e.type e.range
      ⟨target, explicit, scope.castLimit⟩ mandatory position).outcome := by
  obtain ⟨same, hsame, -⟩ := Structs.compare_native (s := scope.structs) hK h.native ht
  rw [hs.names.casts, CastTable.resolve]
  refine Failure.Ends.traced (Failure.safe_ofTraced (P := fun _ => True) ⟨same, hsame, trivial⟩)
    fun same _ => ?_
  cases same with
  | true => trivial
  | false =>
    obtain ⟨found, hf, -⟩ := Builtin.search_native hK hs.structs h.native h.suits
      (q := ⟨target, explicit, scope.castLimit⟩) ht
    refine Failure.Ends.traced (Failure.safe_ofTraced ⟨found, hf, rfl⟩) ?_
    rintro _ rfl
    cases found with
    | unreachable =>
      cases mandatory with
      | true => exact ⟨rfl, hp⟩
      | false => trivial
    | chain c tied =>
      obtain rfl := Builtin.search_untied (hK.tells _) h.native.toOver ht.toOver h.suits.filled
        (.inr h.suits.spans) hf
      trivial

/-- A conversion gives a range that suits the new type. -/
theorem convert_safe (h : e.FitAt L scope.structs K) (ht : target.Native K) :
    (e.convert scope limit target mandatory explicit).Safe L fun e' =>
      e'.FitAt L scope.structs K ∧ (mandatory = true → e'.type = target) := by
  have defined : (e.convert scope limit target mandatory explicit).Safe L fun _ => True := by
    obtain ⟨same, hsame, -⟩ := Structs.compare_native (s := scope.structs) hK h.native ht
    refine (safe_ofTraced (P := fun _ => True) ⟨same, hsame, trivial⟩).bind fun same _ => ?_
    cases same with
    | true => exact ends_pure trivial
    | false =>
      obtain ⟨adopted, ha⟩ := adopt_defined (e := e) hs ht
      refine (safe_ofFault (P := fun _ => True) ⟨adopted, ha, trivial⟩).bind fun adopted _ => ?_
      cases adopted with
      | some e' => exact ends_pure trivial
      | none =>
        refine (ends_lift (resolve_safe hK hs h.toApt ht h.place)).bind fun chain _ => ?_
        cases chain with
        | none => exact ends_pure trivial
        | some c => exact Check.Ends.bind (ends_spend ⟨rfl, h.place⟩) fun _ _ =>
            ends_pure trivial
  refine (defined.and fun p e' q hg => (convert_gives hg).1).mono ?_
  rintro e' ⟨-, hc⟩
  refine ⟨⟨hc.fit hK hs h.toFit ht, hc.position ▸ h.place⟩, ?_⟩
  rintro rfl
  exact hc.type_eq hK hs.names.casts h.native ht

theorem required_safe (h : e.FitAt L scope.structs K) (ht : target.Native K) :
    (e.meet scope limit (.required target)).Safe L fun e' => e'.FitAt L scope.structs K ∧
      (target.isVoid = false → e'.type = target) ∧ (target.isVoid = true → e' = e) := by
  show (if target.isVoid then pure e else e.convert scope limit target true false).Safe L _
  cases hv : target.isVoid with
  | true =>
    rw [if_pos rfl]
    exact ends_pure ⟨h, by simp, fun _ => rfl⟩
  | false =>
    rw [if_neg Bool.false_ne_true]
    refine (convert_safe hK hs h ht).mono ?_
    rintro e' ⟨ha, htype⟩
    exact ⟨ha, fun _ => htype rfl, by simp⟩

theorem meet_safe {expected : Expected} (h : e.FitAt L scope.structs K) (hx : expected.Native K) :
    (e.meet scope limit expected).Safe L fun e' => e'.FitAt L scope.structs K := by
  unfold meet
  split
  · next t ht =>
    split
    · exact ends_pure h
    · exact (convert_safe hK hs h (hx t ht).1).mono fun e' he => he.1
  · exact ends_pure h

theorem decay_safe (h : e.FitAt L scope.structs K) :
    (e.decay scope limit).Safe L fun e' => e'.FitAt L scope.structs K ∧ e'.type = e.type.bare := by
  unfold decay
  split
  · exact (convert_safe hK hs h (Ty.native_bare.mpr h.native)).mono fun e' he => ⟨he.1, he.2 rfl⟩
  · next hf => exact ends_pure ⟨h, (Ty.bare_eq_self (Bool.not_eq_true _ ▸ hf)).symm⟩

end Typed

/-! ### Overloads -/

/-- A choice among overloads of types of the program has an outcome; an overload that is chosen is
one of them. -/
theorem Candidate.choose_safe {α : Type} {K : StructRef → Prop} {L : Leeway} {result : Ty}
    {scope : Scope} {operands : List Typed} {cs : List (Candidate α)} {expected : Option Ty}
    (hK : StructRef.Distinct K) (hs : scope.Sane K result)
    (ho : ∀ e ∈ operands, e.Apt scope.structs K)
    (hcs : ∀ c ∈ cs, (∀ t ∈ c.parameters, t.Native K) ∧ c.result.Native K)
    (hx : ∀ t, expected = some t → t.Native K) :
    (ofTraced (choose scope cs operands expected)).Safe L fun choice =>
      ∀ a, choice = .unique a → ∃ c ∈ cs, c.value = a := by
  have answered : Answered scope operands expected cs := by
    constructor
    · intro c hc
      refine Typed.conversionWeights_defined fun p hp => ?_
      obtain ⟨he, ht⟩ := List.of_mem_zip hp
      have apt := ho p.1 he
      have target := (hcs c hc).1 p.2 ht
      obtain ⟨same, hsame, -⟩ := Structs.compare_native hK apt.native target
      obtain ⟨found, hfound, -⟩ := Builtin.search_native hK hs.structs apt.native apt.suits
        (q := ⟨p.2, false, scope.castLimit⟩) target
      rw [← hs.names.casts] at hfound
      exact Typed.conversionWeight_defined hsame hfound
    · intro t ht _ c hc
      have native := (hcs c.candidate (candidate_mem_of_weighed hc)).2
      obtain ⟨same, hsame, -⟩ := Structs.compare_native hK native (Ty.native_bare.mpr (hx t ht))
      exact ⟨same, hsame⟩
  have chosen := choose_eq_ok.mpr ⟨answered, rfl⟩
  refine safe_ofTraced ⟨_, chosen, fun a ha => ?_⟩
  exact choose_unique (chosen.trans (congrArg _ ha))

/-! ### Expressions -/

/-- A number that is read has a type that holds it. -/
theorem Literal.readNumber_lt {text : String} {n : Nat} (h : readNumber text = .ok n) :
    n < 2 ^ 64 := by
  unfold readNumber at h
  dsimp only at h
  split at h
  · cases h
  · split at h
    · cases h
    · split at h
      · next hn =>
        cases h
        have := (readNumeral_eq_ok_iff.mp hn).2
        omega
      · cases h

theorem Builtin.bounds_smallestUnsigned {n : Nat} (h : n < 2 ^ 64) :
    ∃ high : Int, (smallestUnsigned n).bounds? = some (0, high) ∧ (n : Int) ≤ high := by
  unfold smallestUnsigned
  split
  · exact ⟨0xFF, by decide, by omega⟩
  · split
    · exact ⟨0xFFFF, by decide, by omega⟩
    · split
      · exact ⟨0xFFFFFFFF, by decide, by omega⟩
      · exact ⟨0xFFFFFFFFFFFFFFFF, by decide, by omega⟩

/-- The overloads of the operators are about types of the program. -/
theorem Builtin.overload_native {K : StructRef → Prop} {o : Overload} (h : o ∈ overloads) :
    (∀ t ∈ o.parameters, t.Native K) ∧ o.result.Native K := by
  cases hop : o.operator with
  | unary op =>
    obtain ⟨u, hu, hps, hres, -⟩ := unary_overload h hop
    have hn : u.Native K := Ty.native_of_mem (mem_all_of_values hu)
    refine ⟨fun t ht => ?_, hres ▸ hn⟩
    rw [hps] at ht
    obtain rfl := List.mem_singleton.mp ht
    exact hn
  | binary op =>
    obtain ⟨u, hu, hps, hres, -⟩ := binary_overload h hop
    have hn : u.Native K := Ty.native_of_mem (mem_all_of_values hu)
    refine ⟨fun t ht => ?_, ?_⟩
    · rw [hps] at ht
      simp only [List.mem_cons, List.not_mem_nil, or_false, or_self] at ht
      obtain rfl := ht
      exact hn
    · rcases hres with hres | hres
      · rw [hres]
        exact hn
      · rw [hres]
        exact Ty.native_bool

section Expressions

variable {K : StructRef → Prop} {L : Leeway} {result : Ty} {scope : Scope} {limit : Weight}
  {span : Span} {expected : Expected} {e : Typed}

theorem Literal.readNumber_clear {text : String} {cause : Cause}
    (h : readNumber text = .error cause) :
    cause.isAmbiguousCast = false := by
  unfold readNumber at h
  dsimp only at h
  split at h
  · cases h
    rfl
  · split at h
    · cases h
      rfl
    · split at h
      · cases h
      · cases h
        rfl

/-- A literal has a range, or is too large. -/
theorem Literal.typed_safe (hs : scope.Sane K result) (l : Literal) (hp : L span.start) :
    (l.typed scope span).Safe L fun e => e.FitAt L scope.structs K := by
  cases l with
  | number text =>
    unfold typed
    dsimp only
    split
    · next hn => exact safe_fail (readNumber_clear hn) hp
    · next n hn =>
      obtain ⟨high, hb, hle⟩ := Builtin.bounds_smallestUnsigned (readNumber_lt hn)
      have native : (Builtin.smallestUnsigned n).Native K :=
        Ty.native_of_mem (Builtin.smallestUnsigned_mem_all n)
      refine (safe_ofFault
        (Range.literal_suits (s := scope.structs) native.word hb (by omega) hle)).bind ?_
      exact fun range hr => ends_pure (.plain hp native hr trivial)
  | bool b =>
    exact ends_pure
      (.plain hp Ty.native_bool (Range.suits_bools (Bools.nonempty_exactly b)) trivial)
  | null =>
    have native := Ty.native_pointerTo.mpr (Ty.native_void (K := K))
    refine (safe_ofFault (Structs.nullRange_suits hs.structs native rfl)).bind ?_
    exact fun range hr => ends_pure (.plain hp native hr trivial)

namespace Typed

variable {s : Structs}

theorem ofName_safe (hs : scope.Sane K result) (name : String) (hp : L span.start) :
    (ofName scope span name).Safe L fun e => e.FitAt L scope.structs K := by
  unfold ofName
  split
  · next v hv =>
    refine ends_pure (.plain hp (Ty.native_withFlags.mpr (hs.names.lookupVariable hv)) ?_ trivial)
    exact Range.suits_withFlags.mpr (hs.ranges.lookupVariable hv)
  · exact safe_fail rfl hp
  · exact safe_fail rfl hp

theorem operatorRange_safe {o : Overload} {operands : List Range} (hp : L span.start)
    (h : Transferred.Suits s o.result (o.transfer.apply o.result operands)) :
    (operatorRange o operands span).Safe L fun r => r.Suits s o.result := by
  refine (safe_ofFault h).bind fun transferred ht => ?_
  cases transferred with
  | ok r => exact ends_pure (ht r rfl)
  | error _ => exact safe_fail rfl hp

theorem operatorCandidates_native (hs : scope.Sane K result) (op : Operator) :
    ∀ c ∈ operatorCandidates scope op, (∀ t ∈ c.parameters, t.Native K) ∧ c.result.Native K := by
  intro c hc
  obtain ⟨o, ho, rfl⟩ := List.mem_map.mp hc
  obtain ⟨ho, -⟩ := List.mem_filter.mp ho
  rw [hs.names.overloads] at ho
  exact Builtin.overload_native ho

/-- An operator of one operand breaks no rule. -/
theorem unary_safe (hK : StructRef.Distinct K) (hs : scope.Sane K result) (hx : expected.Native K)
    (op : UnaryOp) (hp : L span.start) (h : e.FitAt L scope.structs K) :
    (unary scope limit expected span op e).Safe L fun e' => e'.FitAt L scope.structs K := by
  refine (Candidate.choose_safe hK hs (by simpa using h.toApt) (operatorCandidates_native hs _)
    fun t ht => (hx t ht).1).bind fun choice hc => ?_
  cases choice with
  | ambiguous | none => exact safe_fail rfl hp
  | unique o =>
    obtain ⟨c, hm, rfl⟩ := hc o rfl
    obtain ⟨ho, hop⟩ := mem_of_operatorCandidates hm
    rw [hs.names.overloads] at ho
    obtain ⟨t, ht, hps, hres, -⟩ := Builtin.unary_overload ho hop
    have hn : t.Native K := Ty.native_of_mem (Builtin.mem_all_of_values ht)
    have first : c.value.parameter 0 = .ok t := by rw [Overload.parameter, hps]; rfl
    refine (safe_ofFault ⟨t, first, rfl⟩).bind ?_
    rintro _ rfl
    refine (convert_safe hK hs h hn).bind ?_
    rintro operand ⟨ha, htype⟩
    have suits := ha.suits
    rw [htype rfl] at suits
    refine (operatorRange_safe hp (Builtin.unary_suits ho hop hps suits)).bind fun range hr => ?_
    exact ends_pure (.plain hp (hres ▸ hn) hr ha.ranged)

/-- An operator of two operands breaks no rule. -/
theorem binary_safe (hK : StructRef.Distinct K) (hs : scope.Sane K result) (hx : expected.Native K)
    (op : BinaryOp) (hp : L span.start) {left right : Typed} (hl : left.FitAt L scope.structs K)
    (hr : right.FitAt L scope.structs K) :
    (binary scope limit expected span op left right).Safe L fun e' =>
      e'.FitAt L scope.structs K := by
  refine (Candidate.choose_safe hK hs (by simpa using ⟨hl.toApt, hr.toApt⟩)
    (operatorCandidates_native hs _)
    fun t ht => (hx t ht).1).bind fun choice hc => ?_
  cases choice with
  | ambiguous | none => exact safe_fail rfl hp
  | unique o =>
    obtain ⟨c, hm, rfl⟩ := hc o rfl
    obtain ⟨ho, hop⟩ := mem_of_operatorCandidates hm
    rw [hs.names.overloads] at ho
    obtain ⟨t, ht, hps, -⟩ := Builtin.binary_overload ho hop
    have hn : t.Native K := Ty.native_of_mem (Builtin.mem_all_of_values ht)
    have first : c.value.parameter 0 = .ok t := by rw [Overload.parameter, hps]; rfl
    have second : c.value.parameter 1 = .ok t := by rw [Overload.parameter, hps]; rfl
    refine (safe_ofFault ⟨t, first, rfl⟩).bind ?_
    rintro _ rfl
    refine (convert_safe hK hs hl hn).bind ?_
    rintro left ⟨hl, hlt⟩
    refine (safe_ofFault ⟨t, second, rfl⟩).bind ?_
    rintro _ rfl
    refine (convert_safe hK hs hr hn).bind ?_
    rintro right ⟨hr, hrt⟩
    have suits := hl.suits
    have suits' := hr.suits
    rw [hlt rfl] at suits
    rw [hrt rfl] at suits'
    refine (operatorRange_safe hp (Builtin.binary_suits ho hop hps suits suits')).bind
      fun range hs => ?_
    exact ends_pure (.plain hp (Builtin.overload_native ho).2 hs ⟨hl.ranged, hr.ranged⟩)

/-- Logical operators are applied to booleans. -/
theorem logical_fit (op : LogicalOp) (hp : L span.start) {left right : Typed} (hl : left.Ranged s)
    (hr : right.FitAt L s K) (ht : right.type = Builtin.bool) :
    (logical span op left right).FitAt L s K := by
  have suits := hr.suits
  rw [ht] at suits
  obtain ⟨b, hb, hne⟩ := suits.bools
  refine .plain hp Ty.native_bool (Range.suits_bools ?_) ⟨hl, hr.ranged⟩
  rw [hb]
  cases op with
  | and => exact Bools.nonempty_and hne
  | or => exact Bools.nonempty_or hne

theorem addressOf_safe (hp : L span.start) (h : e.FitAt L s K) :
    (addressOf span e).Safe L fun e' => e'.FitAt L s K := by
  unfold addressOf
  split
  · refine ends_pure (.plain hp (Ty.native_pointerTo.mpr (Ty.native_withFlags.mpr h.native)) ?_
      h.ranged)
    exact ⟨Range.suits_withFlags.mpr h.suits, Bools.nonempty_exactly true⟩
  · exact safe_fail rfl hp

/-- Following a pointer breaks no rule. -/
theorem dereference_safe (hK : StructRef.Distinct K) (hs : scope.Sane K result) (hp : L span.start)
    (h : e.FitAt L scope.structs K) :
    (dereference scope limit span e).Safe L fun e' => e'.FitAt L scope.structs K := by
  unfold dereference
  split
  · exact safe_fail rfl hp
  · next pointed hd =>
    obtain ⟨hb, hn⟩ := h.native.eq_pointerTo hd
    have native : pointed.asReference.Native K := Ty.native_withFlags.mpr hn
    refine (decay_safe hK hs h).bind ?_
    rintro operand ⟨ho, ht⟩
    split
    · next range initialized hr =>
      split
      · have suits := ho.suits
        rw [ht, hb, hr] at suits
        exact ends_pure (.plain hp native (Range.suits_withFlags.mpr suits.1) ho.ranged)
      · exact safe_fail rfl hp
    · exact ends_pure (.plain hp native (Range.suits_withFlags.mpr (hs.rangeOf hn)) ho.ranged)

theorem assignable_safe (hp : L span.start) (hn : e.type.Native K) :
    (assignable span e).Safe L fun t => t.Native K ∧ t.isFlagged = false := by
  unfold assignable
  split
  · exact safe_fail rfl hp
  · split
    · exact safe_fail rfl hp
    · exact ends_pure ⟨Ty.native_bare.mpr hn, Ty.isFlagged_bare _⟩

theorem calledFunctions_safe (hp : L span.start) {name : String} :
    (calledFunctions scope span name).Safe L fun ids =>
      scope.lookupSymbol name = some (.functions ids) := by
  unfold calledFunctions
  split
  · next hl => exact ends_pure hl
  · exact safe_fail rfl hp
  · exact safe_fail rfl hp

theorem passAll_safe (hK : StructRef.Distinct K) (hs : scope.Sane K result) :
    ∀ {es : List Typed} {ts : List Ty}, (∀ e ∈ es, e.FitAt L scope.structs K) →
    (∀ t ∈ ts, t.Native K) →
      (passAll scope limit es ts).Safe L fun es' => RangedAll scope.structs es'
  | [], _, _, _ | _ :: _, [], _, _ => ends_pure trivial
  | e :: es, t :: ts, he, ht => by
    have hb := Ty.native_bare.mpr (ht t (.head _))
    refine (convert_safe hK hs (he e (.head _)) hb).bind fun first hf => ?_
    refine (passAll_safe hK hs (fun e h => he e (.tail _ h))
      fun t h => ht t (.tail _ h)).bind fun rest hrest => ?_
    exact ends_pure ⟨hf.1.ranged, hrest⟩

/-- A call breaks no rule. -/
theorem call_safe (hK : StructRef.Distinct K) (hs : scope.Sane K result) (hx : expected.Native K)
    (hp : L span.start) {name : String} {ids : List Nat} {es : List Typed}
    (h : ∀ e ∈ es, e.FitAt L scope.structs K)
    (hn : scope.lookupSymbol name = some (.functions ids)) :
    (call scope limit expected span name ids es).Safe L fun e => e.FitAt L scope.structs K := by
  obtain ⟨callees, hc⟩ := hs.callees hn
  have native : ∀ c ∈ callees, c.prototype.signature.Native K := by
    intro c hmem
    obtain ⟨id, -, hid⟩ := mem_of_mapM_eq_ok hc c hmem
    exact hs.toNative.callee (Scope.callee_eq_ok hid)
  refine (safe_ofFault ⟨callees, hc, rfl⟩).bind ?_
  rintro _ rfl
  refine (Candidate.choose_safe hK hs (fun e he => (h e he).toApt) ?_
    fun t ht => (hx t ht).1).bind fun choice hc => ?_
  · intro c hc
    obtain ⟨callee, hmem, rfl⟩ := List.mem_map.mp hc
    have signature := native callee (List.mem_filter.mp hmem).1
    refine ⟨fun t ht => ?_, signature.result⟩
    obtain ⟨u, hu, rfl⟩ := List.mem_map.mp ht
    exact Ty.native_bare.mpr (signature.parameters u hu)
  · cases choice with
    | ambiguous | none => exact safe_fail rfl hp
    | unique c =>
      obtain ⟨candidate, hcandidate, rfl⟩ := hc c rfl
      obtain ⟨callee, hmem, rfl⟩ := List.mem_map.mp hcandidate
      have signature := native callee (List.mem_filter.mp hmem).1
      refine (passAll_safe hK hs h signature.parameters).bind fun arguments ha => ?_
      exact ends_pure (.plain hp signature.result (hs.rangeOf signature.result) ha)

/-- The arms of a conditional have one type, so their ranges can be merged. -/
theorem armsRange_suits (hK : StructRef.Distinct K) (hs : scope.Sane K result)
    {condition thenArm elseArm : Typed} (ht : thenArm.Apt scope.structs K)
    (he : elseArm.Apt scope.structs K) (heq : elseArm.type = thenArm.type) :
    ∃ r, (armsRange scope condition thenArm elseArm).outcome = .ok r ∧
      r.Suits scope.structs thenArm.type := by
  have suits := he.suits
  rw [heq] at suits
  unfold armsRange
  split
  · exact ⟨_, rfl, hs.rangeOf ht.native⟩
  · split
    · exact ⟨_, rfl, suits⟩
    · split
      · exact ⟨_, rfl, ht.suits⟩
      · obtain ⟨same, hsame, -⟩ :=
          Structs.compare_native (s := scope.structs) hK he.native ht.native
        rw [Traced.outcome_bind, Scope.compare, hsame, ok_bind]
        cases same with
        | false => exact ⟨_, rfl, hs.rangeOf ht.native⟩
        | true =>
          rw [if_neg (by simp)]
          split
          · exact ⟨_, rfl, suits⟩
          · exact ⟨_, rfl, ht.suits⟩
          · exact ht.suits.merge suits

theorem block_fit (hs : scope.Sane K result) (hx : expected.Native K) (hp : L span.start)
    {ts : List TypedStmt} {r : Option Typed} (hts : TypedStmt.RangedAll scope.structs ts)
    (hr : ∀ e, r = some e → e.FitAt L scope.structs K) :
    (block scope expected span ts r).FitAt L scope.structs K := by
  rcases block_cases scope expected span ts r with ⟨e, rfl, he⟩ | ⟨rfl, t, ht, -, he⟩ | ⟨rfl, -, he⟩
  · rw [he]
    exact .plain hp (hr e rfl).native (hr e rfl).suits ⟨hts, (hr e rfl).ranged⟩
  · rw [he]
    exact .plain hp (hx t ht).1 (hs.rangeOf (hx t ht).1) hts
  · rw [he]
    exact .plain hp Ty.native_void (Range.suits_scalar.mpr rfl) hts

end Typed

theorem Scope.resolveType_plain {s : Scope} : ∀ {x : TypeExpr} {e : Error}, x.extent.Placed L →
    s.resolveType x = .error e → e.IsPlain L
  | .named span name, e, hx, h => by
    unfold Scope.resolveType at h
    split at h
    · cases h
    · cases h
      exact ⟨rfl, hx.1⟩
  | .pointer _ x, _, hx, h | .mutable _ x, _, hx, h =>
    Scope.resolveType_plain hx.2.1 (map_eq_error.mp h)

theorem Scope.addVariable_plain {s : Scope} {v : Variable} {position : Position}
    {e : Error} (hp : L position)
    (h : s.addVariable v position = .error e) : e.IsPlain L := by
  unfold Scope.addVariable at h
  split at h
  · cases h
    exact ⟨rfl, hp⟩
  · cases h

namespace TypedStmt

/-- A definition breaks no rule. -/
theorem defineIn_safe (hs : scope.Sane K result) (hp : L span.start) {name : String} {type : Ty}
    {init : Option Typed}
    (ht : type.Native K) (hr : ∀ value, init = some value → value.Ranged scope.structs)
    (hi : ∀ value, init = some value → type.isVoid = false → value.range.Suits scope.structs type) :
    (defineIn scope span name type init).Safe L fun r =>
      r.1.Ranged scope.structs ∧ r.2.Sane K result ∧ r.2.world = scope.world := by
  dsimp only [defineIn]
  by_cases hv : type.isVoid = true
  · rw [if_pos hv]
    exact (safe_fail (P := fun _ => False) rfl hp).bind fun _ h => h.elim
  · rw [if_neg hv]
    have suits : (definedRange scope type init).Suits scope.structs type := by
      unfold definedRange
      split
      · split
        · exact hs.rangeOf ht
        · exact hi _ rfl (Bool.not_eq_true _ ▸ hv)
      · exact hs.rangeOf ht
    refine ends_newSlot.bind fun slot _ => ?_
    refine (safe_ofError (fun scope' ha => ha) fun _ => Scope.addVariable_plain hp).bind
      fun scope' ha => ?_
    refine ends_pure ⟨?_, hs.addVariable ht suits ha, (Scope.addVariable_world ha).1⟩
    cases init with
    | none => trivial
    | some value => exact hr value rfl

theorem returnType_safe (hs : scope.Sane K result) (hp : L span.start) :
    (returnType scope span).Safe L fun t => t.Native K ∧ t.isFlagged = false := by
  unfold returnType
  split
  · next t ht => exact ends_pure (hs.returns t ht).2
  · exact safe_fail rfl hp

theorem retOf_safe {s : Structs} {t : Ty} {value : Option Typed} (hp : L span.start)
    (h : ∀ e, value = some e → e.Ranged s) : (retOf span t value).Safe L fun st => st.Ranged s := by
  unfold retOf
  split
  · split
    · exact ends_pure trivial
    · exact safe_fail rfl hp
  · split
    · exact safe_fail rfl hp
    · exact ends_pure (h _ rfl)

end TypedStmt

end Expressions

/-! ### Whole trees -/

section Trees

variable {K : StructRef → Prop} {L : Leeway} {result : Ty}

mutual

/-- By induction on the expression: each node is safe if its parts are. -/
theorem Expr.natural_safe (hK : StructRef.Distinct K) :
    ∀ (e : Expr) {scope : Scope} {limit : Weight} {expected : Expected}, e.extent.Placed L →
      scope.Sane K result → expected.Native K →
      (e.natural scope limit expected).Safe L fun built => built.FitAt L scope.structs K
  | .literal span l, scope, limit, expected, hp, hs, _ => by
    rw [Expr.natural]
    exact l.typed_safe hs hp.1
  | .identifier span name, scope, limit, expected, hp, hs, _ => by
    rw [Expr.natural]
    exact Typed.ofName_safe hs name hp.1
  | .prefixed span .negate e, scope, limit, expected, hp, hs, hx
  | .prefixed span .not e, scope, limit, expected, hp, hs, hx => by
    rw [Expr.natural]
    exact (Expr.natural_safe hK e hp.2.1 hs Expected.native_anything).bind fun operand ho =>
      Typed.unary_safe hK hs hx _ hp.1 ho
  | .prefixed span .addressOf e, scope, limit, expected, hp, hs, _ => by
    rw [Expr.natural]
    exact (Expr.natural_safe hK e hp.2.1 hs Expected.native_anything).bind fun operand ho =>
      Typed.addressOf_safe hp.1 ho
  | .prefixed span .dereference e, scope, limit, expected, hp, hs, _ => by
    rw [Expr.natural]
    exact (Expr.natural_safe hK e hp.2.1 hs Expected.native_anything).bind fun operand ho =>
      Typed.dereference_safe hK hs hp.1 ho
  | .binary span op a b, scope, limit, expected, hp, hs, hx => by
    rw [Expr.natural]
    refine (Expr.natural_safe hK a hp.2.1 hs Expected.native_anything).bind fun left hl => ?_
    refine (Expr.natural_safe hK b hp.2.2.1 hs Expected.native_anything).bind fun right hr => ?_
    exact Typed.binary_safe hK hs hx op hp.1 hl hr
  | .logical span op a b, scope, limit, expected, hp, hs, _ => by
    rw [Expr.natural]
    refine (Expr.natural_safe hK a hp.2.1 hs Expected.native_bool).bind fun left hl => ?_
    refine (Typed.required_safe hK hs hl Ty.native_bool).bind fun left hl => ?_
    refine (Expr.natural_safe hK b hp.2.2.1 hs Expected.native_bool).bind fun right hr => ?_
    refine (Typed.required_safe hK hs hr Ty.native_bool).bind fun right hr => ?_
    exact ends_pure (Typed.logical_fit op hp.1 hl.1.ranged hr.1 (hr.2.1 rfl))
  | .assign span a b, scope, limit, expected, hp, hs, _ => by
    rw [Expr.natural]
    refine (Expr.natural_safe hK a hp.2.1 hs Expected.native_anything).bind fun target ht => ?_
    refine (Typed.assignable_safe hp.1 ht.native).bind fun type htype => ?_
    have hx := Expected.native_required htype.1 htype.2
    refine (Expr.natural_safe hK b hp.2.2.1 hs hx).bind fun value hv => ?_
    refine (Typed.meet_safe hK hs hv hx).bind fun value hv => ?_
    exact ends_pure (.plain hp.1 ht.native ht.suits ⟨ht.ranged, hv.ranged⟩)
  | .call span callee es, scope, limit, expected, hp, hs, hx => by
    have other : (callee.natural scope limit .anything).Safe L fun built =>
        built.FitAt L scope.structs K :=
      Expr.natural_safe hK callee hp.2.1 hs Expected.native_anything
    cases callee with
    | identifier nameSpan name =>
      rw [Expr.natural]
      refine (Typed.calledFunctions_safe hp.2.1.1).bind fun ids hids => ?_
      refine (Expr.naturals_safe hK es hp.2.2 hs).bind fun arguments ha => ?_
      exact Typed.call_safe hK hs hx hp.1 ha hids
    | _ =>
      rw [Expr.natural.eq_def]
      exact other.bind fun _ _ => safe_fail rfl hp.1
  | .conditional span c t none, scope, limit, expected, hp, hs, _ => by
    rw [Expr.natural]
    refine (Expr.natural_safe hK c hp.2.1 hs Expected.native_bool).bind fun condition hc => ?_
    refine (Typed.required_safe hK hs hc Ty.native_bool).bind fun condition hc => ?_
    refine (Block.natural_safe hK t hp.2.2.1 hs Expected.native_void).bind fun thenArm ht => ?_
    exact ends_pure (.plain hp.1 Ty.native_void (Range.suits_scalar.mpr rfl)
      ⟨hc.1.ranged, ht.ranged⟩)
  | .conditional span c t (some e), scope, limit, expected, hp, hs, hx => by
    rw [Expr.natural]
    refine (Expr.natural_safe hK c hp.2.1 hs Expected.native_bool).bind fun condition hc => ?_
    refine (Typed.required_safe hK hs hc Ty.native_bool).bind fun condition hc => ?_
    refine (Block.natural_safe hK t hp.2.2.1 hs hx).bind fun thenArm ht => ?_
    refine (Typed.meet_safe hK hs ht hx).bind fun thenArm ht => ?_
    refine (Typed.decay_safe hK hs ht).bind ?_
    rintro thenArm' ⟨ht', htype⟩
    have hf : thenArm'.type.isFlagged = false := by rw [htype, Ty.isFlagged_bare]
    have hx' := Expected.native_required ht'.native hf
    refine ((Block.natural_safe hK e hp.2.2.2.1 hs hx').and (Q := fun elseArm =>
      thenArm'.type.isVoid = true → elseArm.type = thenArm'.type) ?_).bind ?_
    · -- a block that is run for no value is `Void` like the first one
      intro p elseArm q hg hv
      have hvoid := ht'.native.eq_void hv hf
      rw [hvoid] at hg ⊢
      exact (Block.natural_yields _ hg).type_void
    rintro elseArm ⟨he, hvoid⟩
    refine (Typed.required_safe hK hs he ht'.native).bind ?_
    rintro elseArm' ⟨he', hrequired, hkept⟩
    have heq : elseArm'.type = thenArm'.type := by
      cases hv : thenArm'.type.isVoid with
      | false => exact hrequired hv
      | true => rw [hkept hv, hvoid hv]
    refine (safe_ofTraced
      (Typed.armsRange_suits hK hs ht'.toApt he'.toApt heq)).bind fun range hr => ?_
    exact ends_pure (.plain hp.1 ht'.native hr ⟨hc.1.ranged, ht'.ranged, he'.ranged⟩)
  | .block b, scope, limit, expected, hp, hs, hx => by
    rw [Expr.natural_block]
    exact Block.natural_safe hK b hp.2.1 hs hx
  | .cast span e target, scope, limit, expected, hp, hs, _ => by
    rw [Expr.natural]
    refine (safe_ofError (fun t ht => hs.resolveType ht)
      fun _ => Scope.resolveType_plain hp.2.2.1).bind fun t ht => ?_
    refine (Expr.natural_safe hK e hp.2.1 hs Expected.native_anything).bind fun operand ho => ?_
    refine (Typed.convert_safe hK hs ho ht).bind fun operand ho => ?_
    exact ends_pure (.plain hp.1 ho.1.native ho.1.suits ho.1.ranged)

theorem Expr.naturals_safe (hK : StructRef.Distinct K) :
    ∀ (es : List Expr) {scope : Scope} {limit : Weight}, Extent.PlacedAll L (Expr.extents es) →
      scope.Sane K result →
      (Expr.naturals scope limit es).Safe L fun built => ∀ e ∈ built, e.FitAt L scope.structs K
  | [], scope, limit, _, _ => by
    rw [Expr.naturals]
    exact ends_pure (by simp)
  | e :: es, scope, limit, hp, hs => by
    rw [Expr.naturals]
    refine (Expr.natural_safe hK e hp.1 hs Expected.native_anything).bind fun first hf => ?_
    refine (Expr.naturals_safe hK es hp.2 hs).bind fun rest hr => ?_
    exact ends_pure (List.forall_mem_cons.mpr ⟨hf, hr⟩)

theorem Block.natural_safe (hK : StructRef.Distinct K) :
    ∀ (b : Block) {scope : Scope} {limit : Weight} {expected : Expected}, b.extent.Placed L →
      scope.Sane K result → expected.Native K →
      (b.natural scope limit expected).Safe L fun built => built.FitAt L scope.structs K
  | .mk span ss, scope, limit, expected, hp, hs, hx => by
    rw [Block.natural]
    refine (Stmt.checkAll_safe hK ss hp.2 hs.push hx).bind ?_
    rintro ⟨ts, r⟩ ⟨hts, hr⟩
    exact ends_pure (Typed.block_fit hs hx hp.1 hts hr)

/-- The statements of a block break no rule. -/
theorem Stmt.checkAll_safe (hK : StructRef.Distinct K) :
    ∀ (ss : List Stmt) {scope : Scope} {limit : Weight} {expected : Expected},
      Extent.PlacedAll L (Stmt.extents ss) → scope.Sane K result → expected.Native K →
      (Stmt.checkAll scope limit expected ss).Safe L fun r =>
        TypedStmt.RangedAll scope.structs r.1 ∧ ∀ e, r.2 = some e → e.FitAt L scope.structs K
  | [], scope, limit, expected, hp, _, _ => by
    rw [Stmt.checkAll]
    exact ends_pure ⟨trivial, nofun⟩
  | s :: ss, scope, limit, expected, hp, hs, hx => by
    have first := Stmt.check_safe hK s hp.1 hs
    have rest : ∀ {scope' : Scope}, scope'.Sane K result →
        (Stmt.checkAll scope' limit expected ss).Safe L fun r =>
          TypedStmt.RangedAll scope'.structs r.1 ∧ ∀ e, r.2 = some e → e.FitAt L scope'.structs K :=
      fun hs' => Stmt.checkAll_safe hK ss hp.2 hs' hx
    unfold Stmt.checkAll
    split
    · next e _ =>
      refine (Expr.natural_safe hK e hp.1.2.1 hs hx).bind fun natural hn => ?_
      refine (Typed.meet_safe hK hs hn hx).bind fun value hv => ?_
      refine ends_pure ⟨trivial, fun e' he' => ?_⟩
      cases he'
      exact hv
    · refine first.bind ?_
      rintro ⟨first, scope'⟩ ⟨hfirst, hs', hw⟩
      have hstructs : scope'.structs = scope.structs := congrArg World.structs hw
      refine (rest hs').bind ?_
      rintro ⟨rest, r⟩ hr
      rw [hstructs] at hr
      exact ends_pure ⟨⟨hfirst, hr.1⟩, hr.2⟩

/-- A statement breaks no rule, and leaves a scope whose names make sense. -/
theorem Stmt.check_safe (hK : StructRef.Distinct K) :
    ∀ (s : Stmt) {scope : Scope}, s.extent.Placed L → scope.Sane K result →
      (s.check scope).Safe L fun r =>
        r.1.Ranged scope.structs ∧ r.2.Sane K result ∧ r.2.world = scope.world
  | .expr span e, scope, hp, hs => by
    rw [Stmt.check_expr]
    refine ends_statement ?_
    refine (Expr.natural_safe hK e hp.2.1 hs Expected.native_void).bind fun value hv => ?_
    exact ends_pure ⟨hv.ranged, hs, rfl⟩
  | .define span name (some x) none, scope, hp, hs => by
    rw [Stmt.check]
    refine ends_statement ?_
    refine (safe_ofError (fun t ht => hs.resolveType ht)
      fun _ => Scope.resolveType_plain hp.2.1).bind fun t ht => ?_
    exact TypedStmt.defineIn_safe hs hp.1 ht nofun nofun
  | .define span name (some x) (some e), scope, hp, hs => by
    rw [Stmt.check]
    refine ends_statement ?_
    refine (safe_ofError (fun t ht => hs.resolveType ht)
      fun _ => Scope.resolveType_plain hp.2.1).bind fun t ht => ?_
    have hb := Ty.native_bare.mpr ht
    refine (Expr.natural_safe hK e hp.2.2.1 hs
      (Expected.native_required hb (Ty.isFlagged_bare t))).bind fun natural hn => ?_
    refine (Typed.required_safe hK hs hn hb).bind ?_
    rintro met ⟨hm, hmt, -⟩
    refine (Typed.required_safe hK hs hm (Ty.native_bare.mpr hm.native)).bind ?_
    rintro value ⟨hv, hvt, -⟩
    refine TypedStmt.defineIn_safe hs hp.1 ht (fun _ he => Option.some.inj he ▸ hv.ranged) ?_
    rintro _ ⟨⟩ hvoid
    rw [← Ty.isVoid_bare] at hvoid
    have htype : value.type = t.bare := by
      rw [hvt (by rw [hmt hvoid, Ty.isVoid_bare, hvoid]), hmt hvoid, Ty.bare_bare]
    have suits := hv.suits
    rw [htype] at suits
    exact Range.suits_withFlags.mp suits
  | .define span name none none, scope, hp, hs => by
    rw [Stmt.check]
    exact ends_statement fun _ => .inl ⟨⟨name, rfl⟩, hp⟩
  | .define span name none (some e), scope, hp, hs => by
    rw [Stmt.check]
    refine ends_statement ?_
    refine (Expr.natural_safe hK e hp.2.1 hs Expected.native_anything).bind fun natural hn => ?_
    refine (Typed.required_safe hK hs hn (Ty.native_bare.mpr hn.native)).bind ?_
    rintro value ⟨hv, -⟩
    refine TypedStmt.defineIn_safe hs hp.1 hv.native (fun _ he => Option.some.inj he ▸ hv.ranged) ?_
    rintro _ ⟨⟩ _
    exact hv.suits
  | .ret span none, scope, hp, hs => by
    rw [Stmt.check]
    refine ends_statement ?_
    refine (TypedStmt.returnType_safe hs hp.1).bind fun t _ => ?_
    refine (TypedStmt.retOf_safe hp.1 ?_).bind fun r hr => ends_pure ⟨hr, hs, rfl⟩
    exact nofun
  | .ret span (some e), scope, hp, hs => by
    rw [Stmt.check]
    refine ends_statement ?_
    refine (TypedStmt.returnType_safe hs hp.1).bind fun t ht => ?_
    have hx := TypedStmt.returnExpected_native ht.1 ht.2
    refine (Expr.natural_safe hK e hp.2.1 hs hx).bind fun natural hn => ?_
    refine (Typed.meet_safe hK hs hn hx).bind fun value hv => ?_
    exact (TypedStmt.retOf_safe hp.1 fun _ he => Option.some.inj he ▸ hv.ranged).bind
      fun r hr => ends_pure ⟨hr, hs, rfl⟩
  | .loop span c body, scope, hp, hs => by
    rw [Stmt.check]
    refine ends_statement ?_
    refine (Expr.natural_safe hK c hp.2.1 hs Expected.native_bool).bind fun natural hn => ?_
    refine (Typed.required_safe hK hs hn Ty.native_bool).bind fun condition hc => ?_
    refine (Block.natural_safe hK body hp.2.2.1 hs Expected.native_void).bind fun body' hb => ?_
    exact ends_pure ⟨⟨hc.1.ranged, hb.ranged⟩, hs, rfl⟩

end

end Trees

end Gauge
