import Gauge.Proofs.Typed.Safe

/-!
# Proofs — what overloads are chosen by

An operand counts as convertible exactly if it is of the parameter's type already or becomes a value
of it (`Scope.Converts.conversionWeight_isSome_iff`).  The overloads that can be chosen are those
whose parameters all operands convert to, and where some of them give the expected type, only these
(`Candidate.choose_of_weights`).
-/

namespace Gauge

open Check

namespace Builtin

theorem distinct_none : StructRef.Distinct fun _ => False := by
  intro a b ha
  exact ha.elim

end Builtin

section Convertible

variable {K R : StructRef → Prop} {target : Ty} {scope : Scope} {e : Typed}

/-- The conversions are the builtin ones, the structs can be told apart, and chains may be as long
as they need to be. -/
structure Scope.Converts (R : StructRef → Prop) (scope : Scope) : Prop where
  casts : scope.world.casts = Builtin.casts
  tells : scope.structs.Tells R
  limit : 3 ≤ scope.castLimit.length.toNat

theorem Builtin.standard_converts : (Scope.standard .standard).Converts fun _ => False :=
  ⟨rfl, distinct_none.tells _, by decide⟩

/-- The range of an expression bounds the values of its type. -/
structure Typed.Bounded (R : StructRef → Prop) (e : Typed) : Prop where
  type_over : e.type.Over R
  spans : e.range.Spans e.type

theorem Typed.Apt.bounded {s : Structs} (h : e.Apt s K) (hKR : ∀ r, K r → R r) : e.Bounded R :=
  ⟨(h.native.mono hKR).toOver, h.suits.spans⟩

/-- The operand is of the type, or becomes a value of it. -/
def Typed.Fits (scope : Scope) (e : Typed) (target : Ty) : Prop :=
  scope.structs.form e.type = scope.structs.form target ∨
    Builtin.Becomes scope.structs e.type e.range target

namespace Scope.Converts

theorem compare_outcome (hs : scope.Converts R) (h : e.Bounded R) (ht : target.Over R) :
    ∃ same, (scope.compare e.type target).outcome = .ok same ∧
      (same = true ↔ scope.structs.form e.type = scope.structs.form target) :=
  Structs.compare_outcome hs.tells h.type_over ht

/-- A search finds the conversion of an operand that fits the type, and none of another. -/
theorem search_outcome (hs : scope.Converts R) (h : e.Bounded R) (ht : target.Over R)
    (hne : scope.structs.form e.type ≠ scope.structs.form target) :
    (∃ c, e.Fits scope target ∧ (scope.search e.type e.range
      ⟨target, false, scope.castLimit⟩).outcome = .ok (.chain c false)) ∨
    (¬ e.Fits scope target ∧ (scope.search e.type e.range
      ⟨target, false, scope.castLimit⟩).outcome = .ok .unreachable) := by
  rw [Scope.search, hs.casts]
  rcases Builtin.search_cases hs.tells h.type_over ht hne h.spans hs.limit with
    ⟨becomes, c, hc, -⟩ | ⟨never, hc⟩
  · exact .inl ⟨c, .inr becomes, hc⟩
  · exact .inr ⟨not_or.mpr ⟨hne, never⟩, hc⟩

/-- An operand has a weight exactly if it fits. -/
theorem conversionWeight_isSome_iff (hs : scope.Converts R) (h : e.Bounded R) (ht : target.Over R) :
    ∃ weight, (e.conversionWeight scope target).outcome = .ok weight ∧
      (weight.isSome = true ↔ e.Fits scope target) := by
  obtain ⟨same, hsame, hiff⟩ := hs.compare_outcome h ht
  unfold Typed.conversionWeight
  rw [Traced.outcome_bind, hsame, ok_bind]
  cases same with
  | true => exact ⟨_, rfl, fun _ => .inl (hiff.mp rfl), fun _ => rfl⟩
  | false =>
    have hne : scope.structs.form e.type ≠ scope.structs.form target := fun he => by
      cases hiff.mpr he
    rw [if_neg Bool.false_ne_true, Traced.outcome_bind]
    rcases hs.search_outcome h ht hne with ⟨c, hfits, hc⟩ | ⟨hmiss, hc⟩
    · rw [hc]
      exact ⟨_, rfl, fun _ => hfits, fun _ => rfl⟩
    · rw [hc]
      exact ⟨none, rfl, fun h => (by cases h), fun h => absurd h hmiss⟩

end Scope.Converts

theorem Typed.conversionWeights_single {weight : Option Weight} {total : Weight}
    (h : (e.conversionWeight scope target).outcome = .ok weight) :
    (conversionWeights scope total [e] [target]).outcome = .ok (weight.map (total + ·)) := by
  rw [conversionWeights, Traced.outcome_bind, h, ok_bind]
  cases weight <;> rfl

end Convertible

/-! ### Literals -/

namespace Range

variable {t : Ty} {low high lo hi : Int}

theorem integer_signed (hw : t.Word) (hb : t.bounds? = some (low, high)) (hs : t.isSigned = true)
    (hl : low ≤ lo) (hle : lo ≤ hi) (hh : hi ≤ high) : integer t lo hi = .ok (.signed lo hi) := by
  obtain ⟨h₁, h₂⟩ := Ty.signed_bounds_word hw hb hs
  have inside : low ≤ lo ∧ lo ≤ hi ∧ hi ≤ high := ⟨hl, hle, hh⟩
  simp only [integer, hb, ofBounds, hs, if_true, if_pos inside]
  rw [Int.bmod_eq_of_le (by omega) (by omega), Int.bmod_eq_of_le (by omega) (by omega)]

theorem integer_unsigned (hw : t.Word) (hb : t.bounds? = some (low, high))
    (hs : t.isSigned = false) (hl : low ≤ lo) (hle : lo ≤ hi) (hh : hi ≤ high) :
    integer t lo hi = .ok (.unsigned lo.toNat hi.toNat) := by
  have h₁ := Ty.unsigned_bounds_word hw hb hs
  obtain ⟨rfl, -⟩ := Ty.unsigned_bounds hb hs
  have inside : 0 ≤ lo ∧ lo ≤ hi ∧ hi ≤ high := ⟨hl, hle, hh⟩
  simp only [integer, hb, ofBounds, hs, Bool.false_eq_true, if_false, if_pos inside]
  rw [Int.emod_eq_of_lt (by omega) (by omega), Int.emod_eq_of_lt (by omega) (by omega)]

end Range

/-- A number as it is typed before anything is expected of it. -/
def Typed.number (n : Nat) (span : Span) : Typed :=
  .plain (.constant (.integer n)) (Builtin.smallestUnsigned n) (.unsigned n n) span

theorem Builtin.isSigned_smallestUnsigned (n : Nat) : (smallestUnsigned n).isSigned = false := by
  have : ∀ t ∈ unsigned, t.isSigned = false := by decide
  exact this _ (smallestUnsigned_mem n)

theorem Range.literal_smallestUnsigned {n : Nat} (h : n < 2 ^ 64) :
    literal (Builtin.smallestUnsigned n) n = .ok (.unsigned n n) := by
  obtain ⟨high, hb, hn⟩ := Builtin.bounds_smallestUnsigned h
  have hw := Builtin.word_of_mem (Builtin.smallestUnsigned_mem_all n)
  rw [literal, Ty.not_bool_of_bounds hb]
  exact integer_unsigned hw hb (Builtin.isSigned_smallestUnsigned n) (by omega) (le_refl _) hn

namespace Builtin

variable {R : StructRef → Prop} {n : Nat} {span : Span} {t i : Ty} {low high : Int}

theorem number_bounded (hn : n < 2 ^ 64) : (Typed.number n span).Bounded R := by
  have native : (smallestUnsigned n).Native R :=
    Ty.native_of_mem (smallestUnsigned_mem_all n)
  have suits : (Range.unsigned n n).Suits .empty (smallestUnsigned n) :=
    Range.literal_eq_ok native.word (Range.literal_smallestUnsigned hn)
  exact ⟨native.toOver, suits.spans⟩

/-- A literal that is at most the greatest value of a type that compares as an integer type is one
of its values. -/
theorem number_fits {scope : Scope} (hi : i ∈ integers)
    (ht : scope.structs.form t = scope.structs.form i) (hb : t.bounds? = some (low, high))
    (hn : (n : Int) ≤ high) : (Typed.number n span).Fits scope t := by
  refine .inr (.integer (smallestUnsigned_mem_integers n) hi ?_ ht ?_)
  · have : ∀ t ∈ unsigned, t.bare = t := by decide
    exact congrArg _ (this _ (smallestUnsigned_mem n))
  · rintro v ⟨hl, hh⟩
    have := Ty.low_le_high hb
    exact (Ty.admits_iff hb).mpr ⟨by omega, by omega⟩

end Builtin

theorem Literal.typed_number_gives {text : String} {n : Nat} (h : readNumber text = .ok n)
    {scope : Scope} {span : Span} {p : Progress} :
    ((Literal.number text).typed scope span).Gives p (.number n span) p := by
  simp only [typed, h]
  exact gives_bind.mpr ⟨_, p,
    gives_ofFault.mpr ⟨Range.literal_smallestUnsigned (readNumber_lt h), rfl⟩,
    gives_pure.mpr ⟨rfl, rfl⟩⟩

/-! ### What a conversion gives -/

namespace Typed

variable {target : Ty} {scope : Scope} {limit : Weight} {mandatory explicit : Bool} {e e' : Typed}
  {c : Chain} {p q : Progress}

theorem convert_gives_same (h : (scope.compare e.type target).outcome = .ok true) :
    (e.convert scope limit target mandatory explicit).Gives p e p :=
  gives_bind.mpr ⟨true, p, gives_ofTraced.mpr ⟨h, rfl⟩, gives_pure.mpr ⟨rfl, rfl⟩⟩

theorem convert_gives_adopted (h : (scope.compare e.type target).outcome = .ok false)
    (ha : e.adopt scope target = .ok (some e')) :
    (e.convert scope limit target mandatory explicit).Gives p e' p :=
  gives_bind.mpr ⟨false, p, gives_ofTraced.mpr ⟨h, rfl⟩,
    gives_bind.mpr ⟨some e', p, gives_ofFault.mpr ⟨ha, rfl⟩,
      gives_pure.mpr ⟨rfl, rfl⟩⟩⟩

theorem resolve_outcome (h : (scope.compare e.type target).outcome = .ok false)
    (hf : (scope.search e.type e.range ⟨target, explicit, scope.castLimit⟩).outcome =
      .ok (.chain c false)) {position : Position} :
    (scope.world.casts.resolve scope.structs e.type e.range ⟨target, explicit, scope.castLimit⟩
      mandatory position).outcome = .ok (some c) := by
  have hsame := Failure.ofTraced_outcome_ok.mpr h
  have hfound := Failure.ofTraced_outcome_ok.mpr hf
  rw [CastTable.resolve, Traced.bind_ok]
  exact ⟨false, hsame, Traced.bind_ok.mpr ⟨_, hfound, rfl⟩⟩

/-- A conversion that is found is attached, if it is within the limit. -/
theorem convert_gives_chain (h : (scope.compare e.type target).outcome = .ok false)
    (ha : e.adopt scope target = .ok none)
    (hf : (scope.search e.type e.range ⟨target, explicit, scope.castLimit⟩).outcome =
      .ok (.chain c false))
    (hl : limit.lt (p.spent + c.weight) = false) :
    (e.convert scope limit target mandatory explicit).Gives p (e.attach c)
      { p with spent := p.spent + c.weight } := by
  refine gives_bind.mpr ⟨false, p, gives_ofTraced.mpr ⟨h, rfl⟩,
    gives_bind.mpr ⟨none, p, gives_ofFault.mpr ⟨ha, rfl⟩,
      gives_bind.mpr ⟨some c, p, gives_lift.mpr ⟨resolve_outcome h hf, rfl⟩,
        gives_bind.mpr ⟨(), _, ?_, gives_pure.mpr ⟨rfl, rfl⟩⟩⟩⟩⟩
  refine gives_bind.mpr ⟨p, p, gives_get.mpr ⟨rfl, rfl⟩, ?_⟩
  simp only [hl, Bool.false_eq_true, if_false]
  exact gives_set.mpr rfl

theorem meet_required (hv : target.isVoid = false) :
    e.meet scope limit (.required target) = e.convert scope limit target true false := by
  simp [meet, Expected.type?, Expected.isRequired, hv]

end Typed

/-! ### Choices -/

namespace Candidate

variable {α : Type} {scope : Scope} {operands : List Typed} {cs : List (Candidate α)}

theorem filter_weighed (weight : Candidate α → Option Weight) (fits : Candidate α → Bool) :
    (weighed weight cs).filter (fun x => fits x.candidate) = weighed weight (cs.filter fits) := by
  induction cs with
  | nil => rfl
  | cons c cs ih =>
    unfold weighed at ih ⊢
    cases hw : weight c <;> cases hf : fits c <;> simp [hw, hf, ih]

/-- Choosing among the candidates that have a weight: those that give the expected type go first. -/
theorem choose_of_weights (weight : Candidate α → Option Weight) (fits : Candidate α → Bool)
    {t : Ty} (hv : t.isVoid = false)
    (hw : ∀ c ∈ cs,
      (Typed.conversionWeights scope .zero operands c.parameters).outcome = .ok (weight c))
    (hf : ∀ c ∈ cs, (scope.compare c.result t.bare).outcome = .ok (fits c)) :
    (choose scope cs operands (some t)).outcome =
      .ok (lightest (if (weighed weight (cs.filter fits)).isEmpty then weighed weight cs
        else weighed weight (cs.filter fits))) := by
  have fitting : (giving scope t.bare (weighed weight cs)).outcome =
      .ok (weighed weight (cs.filter fits)) := by
    rw [giving_of_fits fits fun x hx => hf x.candidate (candidate_mem_of_weighed hx),
      filter_weighed]
  rw [choose, Traced.outcome_bind, scored_of_weights hw, ok_bind, Traced.outcome_bind, preferred]
  simp only [hv, Bool.false_eq_true, if_false]
  rw [Traced.outcome_bind, fitting, ok_bind]
  rfl

/-- A choice depends on the types and the ranges of the operands. -/
theorem conversionWeights_congr {es es' : List Typed} {total : Weight} {ts : List Ty}
    (h : es.map (fun e => (e.type, e.range)) = es'.map fun e => (e.type, e.range)) :
    Typed.conversionWeights scope total es ts = Typed.conversionWeights scope total es' ts := by
  induction es generalizing es' total ts with
  | nil =>
    obtain rfl : es' = [] := List.map_eq_nil_iff.mp h.symm
    rfl
  | cons e es ih =>
    cases es' with
    | nil => cases h
    | cons e' es' =>
      obtain ⟨he, hes⟩ := List.cons.inj h
      obtain ⟨ht, hr⟩ := Prod.mk.inj he
      cases ts with
      | nil => rfl
      | cons t ts =>
        have first : e.conversionWeight scope t = e'.conversionWeight scope t := by
          rw [Typed.conversionWeight, Typed.conversionWeight, ht, hr]
        simp only [Typed.conversionWeights, first, ih hes]

theorem choose_congr {es es' : List Typed} {expected : Option Ty}
    (h : es.map (fun e => (e.type, e.range)) = es'.map fun e => (e.type, e.range)) :
    choose scope cs es expected = choose scope cs es' expected := by
  have same : scored scope es cs = scored scope es' cs := by
    induction cs with
    | nil => rfl
    | cons c cs ih => rw [scored, scored, conversionWeights_congr h, ih]
  rw [choose, choose, same]

end Candidate

end Gauge
