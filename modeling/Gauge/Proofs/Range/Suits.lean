import Gauge.Proofs.Range.Join
import Gauge.Proofs.Ty.Native

/-!
# Proofs — ranges of a type

A range `Suits` a type if it is of the kind of the type's values, some value lies in it and all of
them are values of the type.  Of a struct it says what every member is, or nothing at all.

Computing with such ranges breaks no rule: two of them can be merged (`Suits.merge`), and what a
type makes of the bounds of a result suits it (`Range.arithmetic_suits`).
-/

namespace Gauge

/-- Some boolean is in the set. -/
def Bools.Nonempty (b : Bools) : Prop := (b.falses || b.trues) = true

namespace Bools

variable {a b : Bools}

theorem nonempty_any : any.Nonempty := rfl

theorem nonempty_exactly (x : Bool) : (exactly x).Nonempty := by cases x <;> rfl

theorem nonempty_not (h : a.Nonempty) : a.not.Nonempty := by
  rw [Nonempty, Bool.or_comm]
  exact h

theorem nonempty_union (h : a.Nonempty) : (a.union b).Nonempty := by
  simp only [Nonempty, union, Bool.or_eq_true] at h ⊢
  tauto

theorem nonempty_and (h : b.Nonempty) : (a.and b).Nonempty := by
  unfold and
  split
  · simp only [Nonempty, Bool.or_eq_true] at h ⊢
    tauto
  · rfl

theorem nonempty_or (h : b.Nonempty) : (a.or b).Nonempty := by
  unfold or
  split
  · simp only [Nonempty, Bool.or_eq_true] at h ⊢
    tauto
  · rfl

end Bools

/-- There are numbers from `lo` to `hi`, and they are values of the scalar. -/
def Scalar.Spans (c : Scalar) (lo hi : Int) : Prop :=
  ∃ low high, c.bounds? = some (low, high) ∧ low ≤ lo ∧ lo ≤ hi ∧ hi ≤ high

theorem Scalar.Spans.merge {c : Scalar} {a b a' b' : Int} (h : c.Spans a b) (h' : c.Spans a' b') :
    c.Spans (min a a') (max b b') := by
  obtain ⟨low, high, hb, hl, hle, hh⟩ := h
  obtain ⟨_, _, hb', hl', hle', hh'⟩ := h'
  obtain ⟨rfl, rfl⟩ := Prod.mk.inj (Option.some.inj (hb.symm.trans hb'))
  exact ⟨low, high, hb, by omega, by omega, by omega⟩

namespace Range

/-- A range of values of a scalar type. -/
def SuitsScalar (c : Scalar) (r : Range) : Prop :=
  match c.kind with
  | .void => r = .void
  | .bool => ∃ b : Bools, r = .bools b ∧ b.Nonempty
  | .unsignedInt | .char => ∃ lo hi : Nat, r = .unsigned lo hi ∧ c.Spans lo hi
  | .signedInt => ∃ lo hi : Int, r = .signed lo hi ∧ c.Spans lo hi

mutual

/-- A range of values of a type. -/
def Suits (s : Structs) : Range → Ty → Prop
  | r, .scalar _ c => r.SuitsScalar c
  | .pointer r b, .pointer _ _ p => r.Suits s p ∧ b.Nonempty
  | .array rs, .struct _ k =>
    rs = [] ∨ ∃ l, s.layout? k = some l ∧ SuitsAll s rs (l.members.map (·.type))
  | _, _ => False

/-- Ranges of values of some types, one for each. -/
def SuitsAll (s : Structs) : List Range → List Ty → Prop
  | [], [] => True
  | r :: rs, t :: ts => r.Suits s t ∧ SuitsAll s rs ts
  | _, _ => False

end

variable {s : Structs} {f : Flags} {r a b : Range} {t : Ty}

theorem suits_scalar {c : Scalar} : r.Suits s (.scalar f c) ↔ r.SuitsScalar c := by
  cases r <;> exact Iff.rfl

theorem suits_pointer {stamp : Stamp} {p : Ty} :
    r.Suits s (.pointer f stamp p) ↔ ∃ q b, r = .pointer q b ∧ q.Suits s p ∧ b.Nonempty := by
  cases r with
  | pointer q b =>
    constructor
    · exact fun h => ⟨q, b, rfl, h⟩
    · rintro ⟨_, _, h, hq⟩
      cases h
      exact hq
  | _ =>
    constructor
    · exact fun h => h.elim
    · rintro ⟨_, _, h, -⟩
      cases h

theorem suits_struct {k : StructRef} :
    r.Suits s (.struct f k) ↔ ∃ rs, r = .array rs ∧
      (rs = [] ∨ ∃ l, s.layout? k = some l ∧ SuitsAll s rs (l.members.map (·.type))) := by
  cases r with
  | array rs =>
    constructor
    · exact fun h => ⟨rs, rfl, h⟩
    · rintro ⟨_, h, hrs⟩
      cases h
      exact hrs
  | _ =>
    constructor
    · exact fun h => h.elim
    · rintro ⟨_, h, -⟩
      cases h

theorem not_suits_function {stamp : Stamp} {n : Option String} {q : Ty} {ps : List Ty} :
    ¬ r.Suits s (.function f stamp n q ps) := by
  cases r <;> exact id

/-- The flags of a type say nothing of its values. -/
@[simp] theorem suits_withFlags : r.Suits s (t.withFlags f) ↔ r.Suits s t := by
  cases t with
  | scalar _ _ => rw [Ty.withFlags, suits_scalar, suits_scalar]
  | pointer _ _ _ => rw [Ty.withFlags, suits_pointer, suits_pointer]
  | struct _ _ => rw [Ty.withFlags, suits_struct, suits_struct]
  | function _ _ _ _ _ =>
    exact ⟨fun h => (not_suits_function h).elim, fun h => (not_suits_function h).elim⟩

/-! ### Merging -/

/-- Ranges that suit a scalar type are merged to one that does. -/
theorem SuitsScalar.merge {c : Scalar} (ha : a.SuitsScalar c) (hb : b.SuitsScalar c) :
    ∃ r, a.merge b = .ok r ∧ r.SuitsScalar c := by
  unfold SuitsScalar at ha hb ⊢
  cases hk : c.kind with
  | void =>
    simp only [hk] at ha hb ⊢
    subst ha hb
    exact ⟨.void, rfl, rfl⟩
  | bool =>
    simp only [hk] at ha hb ⊢
    obtain ⟨x, rfl, hx⟩ := ha
    obtain ⟨y, rfl, -⟩ := hb
    exact ⟨_, rfl, x.union y, rfl, Bools.nonempty_union hx⟩
  | unsignedInt | char =>
    simp only [hk] at ha hb ⊢
    obtain ⟨lo, hi, rfl, h⟩ := ha
    obtain ⟨lo', hi', rfl, h'⟩ := hb
    refine ⟨_, rfl, min lo lo', max hi hi', rfl, ?_⟩
    rw [Nat.cast_min, Nat.cast_max]
    exact h.merge h'
  | signedInt =>
    simp only [hk] at ha hb ⊢
    obtain ⟨lo, hi, rfl, h⟩ := ha
    obtain ⟨lo', hi', rfl, h'⟩ := hb
    exact ⟨_, rfl, _, _, rfl, h.merge h'⟩

mutual

/-- Two ranges of one type have a union.  By induction on the first. -/
theorem Suits.merge : ∀ {a b : Range} {t : Ty}, a.Suits s t → b.Suits s t →
    ∃ r, a.merge b = .ok r ∧ r.Suits s t
  | a, b, .scalar f c, ha, hb => by
    obtain ⟨r, hr, hs⟩ := (suits_scalar.mp ha).merge (suits_scalar.mp hb)
    exact ⟨r, hr, suits_scalar.mpr hs⟩
  | .pointer p x, b, .pointer f stamp t, ha, hb => by
    obtain ⟨q, y, rfl, hq, -⟩ := suits_pointer.mp hb
    obtain ⟨r, hr, hs⟩ := Suits.merge ha.1 hq
    refine ⟨.pointer r (x.union y), ?_, hs, Bools.nonempty_union ha.2⟩
    rw [Range.merge, hr]
    rfl
  | .array as, b, .struct f k, ha, hb => by
    obtain ⟨bs, rfl, hb⟩ := suits_struct.mp hb
    rw [Range.merge]
    split
    · next hl =>
      have unknown : as = [] → ∃ r, (mergeAll as bs).map Range.array = .ok r ∧
          r.Suits s (.struct f k) := by
        intro h
        subst h
        exact ⟨.array [], by rw [mergeAll_nil]; rfl, .inl rfl⟩
      rcases ha with ha | ⟨l, hla, ha⟩
      · exact unknown ha
      · rcases hb with rfl | ⟨l', hlb, hb⟩
        · exact unknown (List.length_eq_zero_iff.mp hl)
        · cases hla.symm.trans hlb
          obtain ⟨rs, hr, hs⟩ := SuitsAll.merge ha hb
          exact ⟨.array rs, by rw [hr]; rfl, .inr ⟨l, hla, hs⟩⟩
    · exact ⟨.array [], rfl, .inl rfl⟩
  | _, _, .function _ _ _ _ _, ha, _ => (not_suits_function ha).elim

theorem SuitsAll.merge : ∀ {as bs : List Range} {ts : List Ty}, SuitsAll s as ts →
    SuitsAll s bs ts →
    ∃ rs, mergeAll as bs = .ok rs ∧ SuitsAll s rs ts
  | [], bs, [], _, _ => ⟨[], mergeAll_nil bs, trivial⟩
  | a :: as, b :: bs, t :: ts, ha, hb => by
    obtain ⟨r, hr, hs⟩ := Suits.merge ha.1 hb.1
    obtain ⟨rs, hrs, hss⟩ := SuitsAll.merge ha.2 hb.2
    exact ⟨r :: rs, by rw [mergeAll, hr, hrs]; rfl, hs, hss⟩
  | [], _, _ :: _, ha, _ | _ :: _, _, [], ha, _ => ha.elim
  | _ :: _, [], _ :: _, _, hb => hb.elim

end

/-! ### Every value of a type -/

/-- Numbers of a type have a range that suits it. -/
theorem suits_ofBounds {low high lo hi : Int} (hw : t.Word) (hb : t.bounds? = some (low, high))
    (hl : low ≤ lo) (hle : lo ≤ hi) (hh : hi ≤ high) : (ofBounds t lo hi).Suits s t := by
  have bounds := bounds_ofBounds hw hb hl hle hh
  obtain ⟨f, c, rfl, hcb⟩ := Ty.eq_scalar_of_bounds hb
  rw [suits_scalar]
  have spans : c.Spans lo hi := ⟨low, high, hcb, hl, hle, hh⟩
  unfold ofBounds at bounds ⊢
  rw [Ty.isSigned_eq (s := c) rfl] at bounds ⊢
  unfold SuitsScalar
  cases hk : c.kind with
  | void | bool => simp [Scalar.bounds?_eq, hk] at hcb
  | unsignedInt | char | signedInt =>
    simp only [hk] at bounds ⊢
    obtain ⟨h₁, h₂⟩ := Prod.mk.inj (Option.some.inj bounds)
    exact ⟨_, _, rfl, by rw [h₁, h₂]; exact spans⟩

end Range

/-- The members of all structs are types of the program. -/
def Structs.Native (K : StructRef → Prop) (s : Structs) : Prop :=
  ∀ r l, s.layout? r = some l → ∀ m ∈ l.members, m.type.Native K

section RangeOf

variable {K : StructRef → Prop} {s : Structs}

/-- The whole range of a builtin scalar suits it. -/
theorem Scalar.range_suits {c : Scalar} {f : Flags} (h : Ty.scalar .none c ∈ Builtin.all) :
    c.range.Suits s (.scalar f c) := by
  have hw := Builtin.word_of_mem h
  unfold Scalar.range
  cases hk : c.kind with
  | void =>
    rw [Range.suits_scalar, Range.SuitsScalar, hk]
  | bool =>
    rw [Range.suits_scalar, Range.SuitsScalar, hk]
    exact ⟨.any, rfl, Bools.nonempty_any⟩
  | unsignedInt | char | signedInt =>
    obtain ⟨⟨low, high⟩, hb⟩ : ∃ p, c.bounds? = some p := by
      rw [Scalar.bounds?_eq, hk]
      exact ⟨_, rfl⟩
    have htb : (Ty.scalar .none c).bounds? = some (low, high) := hb
    obtain ⟨h₁, h₂⟩ := Ty.low_le_high htb
    dsimp only
    rw [hb]
    exact Range.suits_withFlags.mpr
      (Range.suits_ofBounds hw htb (Int.le_refl _) (by omega) (Int.le_refl _))

theorem Ty.rangeWith_suits {g : StructRef → Range} (hg : ∀ f r, K r → (g r).Suits s (.struct f r)) :
    ∀ {t : Ty}, t.Native K → (t.rangeWith g).Suits s t
  | .scalar _ _, h => Scalar.range_suits h
  | .pointer _ _ _, h => ⟨rangeWith_suits hg h.2, Bools.nonempty_any⟩
  | .struct f r, h => hg f r h

/-- The whole range of a struct suits it, at every depth. -/
theorem Structs.structRange_suits (hs : s.Native K) : ∀ (n : Nat) (outer : List String) (f : Flags)
    (r : StructRef), K r → (s.structRange n outer r).Suits s (.struct f r)
  | 0, _, _, _, _ => .inl rfl
  | n + 1, outer, f, r, hr => by
    unfold structRange
    split
    · exact .inl rfl
    · split
      · exact .inl rfl
      · next l hl =>
        refine .inr ⟨l, hl, ?_⟩
        have inner := structRange_suits hs n (r.name :: outer)
        have all : ∀ ms : List Member, (∀ m ∈ ms, m.type.Native K) →
            Range.SuitsAll s
              (ms.map fun m => m.type.rangeWith (s.structRange n (r.name :: outer)))
              (ms.map (·.type)) := by
          intro ms
          induction ms with
          | nil => exact fun _ => trivial
          | cons m ms ih =>
            intro h
            exact ⟨Ty.rangeWith_suits inner (h m (.head _)),
              ih fun m' hm' => h m' (.tail _ hm')⟩
        exact all l.members (hs r l hl)

/-- The widest range of a type suits it. -/
theorem Structs.rangeOf_suits (hs : s.Native K) {t : Ty} (ht : t.Native K) :
    (s.rangeOf t).Suits s t :=
  Ty.rangeWith_suits (fun f r => structRange_suits hs _ _ f r) ht

theorem Structs.nullRange_suits (hs : s.Native K) {t : Ty} (ht : t.Native K)
    (hp : t.isPointer = true) : ∃ r, s.nullRange t = .ok r ∧ r.Suits s t := by
  cases t with
  | pointer f stamp p =>
    exact ⟨_, rfl, rangeOf_suits hs ht.2, Bools.nonempty_exactly false⟩
  | scalar _ _ | function _ _ _ _ _ | struct _ _ => cases hp

end RangeOf

/-! ### Operators -/

/-- The operation is certain to fail, or has a range that suits the type. -/
def Transferred.Suits (s : Structs) (t : Ty) (x : Transferred) : Prop :=
  ∃ y, x = .ok y ∧ ∀ r, y = .ok r → r.Suits s t

namespace Transferred

variable {s : Structs} {t : Ty} {x : Except Fault Range}

theorem suits_map (h : ∃ r, x = .ok r ∧ r.Suits s t) : Suits s t (x.map .ok) := by
  obtain ⟨r, rfl, hr⟩ := h
  refine ⟨.ok r, rfl, ?_⟩
  intro r' h
  cases h
  exact hr

theorem suits_bind (h : ∃ r, x = .ok r ∧ r.Suits s t) : Suits s t (x >>= fun r => .ok (.ok r)) := by
  obtain ⟨r, rfl, hr⟩ := h
  exact suits_map ⟨r, rfl, hr⟩

end Transferred

namespace Range

/-- A range that holds more than zero has another bound. -/
theorem bounds_ne_zero {r : Range} {lo hi : Int} (hr : r.literalValue? ≠ some 0)
    (hb : r.bounds? = some (lo, hi)) : lo ≠ 0 ∨ hi ≠ 0 := by
  by_contra h
  rw [not_or, not_not, not_not] at h
  obtain ⟨rfl, rfl⟩ := h
  apply hr
  cases r with
  | unsigned lo hi =>
    simp only [bounds?, Option.some.injEq, Prod.mk.injEq, Int.natCast_eq_zero] at hb
    rw [hb.1, hb.2]
    rfl
  | signed lo hi =>
    cases hb
    rfl
  | bools x =>
    obtain ⟨f, t⟩ := x
    cases f <;> cases t <;> cases hb
    rfl
  | pointer _ _ | array _ | void => cases hb

section Integers

variable {s : Structs} {t : Ty} {a b r : Range} {low high lo hi : Int} (hw : t.Word)
  (hb : t.bounds? = some (low, high))

include hw hb

theorem integer_suits (hl : low ≤ lo) (hle : lo ≤ hi) (hh : hi ≤ high) :
    ∃ r, integer t lo hi = .ok r ∧ r.Suits s t := by
  refine ⟨ofBounds t lo hi, ?_, suits_ofBounds hw hb hl hle hh⟩
  rw [integer, hb]
  exact if_pos ⟨hl, hle, hh⟩

theorem literal_suits (hl : low ≤ lo) (hh : lo ≤ high) :
    ∃ r, literal t lo = .ok r ∧ r.Suits s t := by
  rw [literal, Ty.not_bool_of_bounds hb]
  exact integer_suits hw hb hl (Int.le_refl lo) hh

theorem full_suits : ∃ r, integer t low high = .ok r ∧ r.Suits s t := by
  obtain ⟨h₁, h₂⟩ := Ty.low_le_high hb
  exact integer_suits hw hb (Int.le_refl _) (by omega) (Int.le_refl _)

theorem exactOrFull_suits (hle : lo ≤ hi) : ∃ r, exactOrFull t lo hi = .ok r ∧ r.Suits s t := by
  simp only [exactOrFull, resultBounds, hb, ok_bind]
  split
  · next h => exact integer_suits hw hb h.1 hle h.2
  · exact full_suits hw hb

theorem wrapped_suits (hs : t.isSigned = false) (hle : lo ≤ hi) :
    ∃ r, wrapped t lo hi = .ok r ∧ r.Suits s t := by
  obtain ⟨rfl, hh⟩ := Ty.unsigned_bounds hb hs
  simp only [wrapped, resultBounds, hb, ok_bind]
  split
  · next h =>
    -- within one turn of the type the remainders are in the order of the numbers
    have h₁ := Int.emod_nonneg lo (by omega : high + 1 ≠ 0)
    have h₂ := Int.emod_lt_of_pos hi (by omega : 0 < high + 1)
    have h₃ := Int.mul_ediv_add_emod lo (high + 1)
    have h₄ := Int.mul_ediv_add_emod hi (high + 1)
    rw [h] at h₃
    exact integer_suits hw hb h₁ (by omega) (by omega)
  · exact full_suits hw hb

theorem arithmetic_suits (hle : lo ≤ hi) : ∃ r, arithmetic t lo hi = .ok r ∧ r.Suits s t := by
  unfold arithmetic
  split
  · exact exactOrFull_suits hw hb hle
  · next hs => exact wrapped_suits hw hb (by simpa using hs) hle

omit hw in
/-- The bounds of a range of integers. -/
theorem Suits.operand (h : r.Suits s t) : ∃ lo hi, r.bounds? = some (lo, hi) ∧
    r.operandBounds = .ok (lo, hi) ∧ low ≤ lo ∧ lo ≤ hi ∧ hi ≤ high := by
  obtain ⟨f, c, rfl, hcb⟩ := Ty.eq_scalar_of_bounds hb
  have spanned : ∀ {lo hi : Int}, c.Spans lo hi → low ≤ lo ∧ lo ≤ hi ∧ hi ≤ high := by
    rintro lo hi ⟨low', high', hb', h⟩
    obtain ⟨rfl, rfl⟩ := Prod.mk.inj (Option.some.inj (hcb.symm.trans hb'))
    exact h
  rw [suits_scalar, SuitsScalar] at h
  cases hk : c.kind with
  | void | bool => simp [Scalar.bounds?_eq, hk] at hcb
  | unsignedInt | char | signedInt =>
    simp only [hk] at h
    obtain ⟨lo, hi, rfl, h⟩ := h
    exact ⟨lo, hi, rfl, rfl, spanned h⟩

variable (ha : a.Suits s t) (hb' : b.Suits s t)

include ha hb'

/-- A remainder by zero is found out; any other has a range. -/
theorem modulo_suits : Transferred.Suits s t (a.modulo t b) := by
  obtain ⟨aMin, aMax, -, ha, halow, hale, hahigh⟩ := ha.operand hb
  obtain ⟨bMin, bMax, hbb, hb', hblow, hble, -⟩ := hb'.operand hb
  by_cases hz : b.literalValue? = some 0
  · simp only [modulo, ha, hb', ok_bind, if_pos hz]
    exact ⟨_, rfl, by simp⟩
  · simp only [modulo, ha, hb', ok_bind, if_neg hz]
    have nonzero := bounds_ne_zero hz hbb
    cases hs : t.isSigned with
    | false =>
      obtain ⟨rfl, -⟩ := Ty.unsigned_bounds hb hs
      simp only [Bool.not_false, if_true]
      split
      · exact Transferred.suits_bind (integer_suits hw hb halow hale hahigh)
      · exact Transferred.suits_bind (integer_suits hw hb (Int.le_refl 0) (by omega) (by omega))
    | true =>
      simp only [Bool.not_true, Bool.false_eq_true, if_false]
      refine Transferred.suits_bind (exactOrFull_suits hw hb ?_)
      -- zero is among the remainders
      have : (0 : Int) ≤ max (bMin.natAbs : Int) bMax.natAbs - 1 := by omega
      split <;> split <;> omega

end Integers

section Booleans

variable {s : Structs}

/-- A range of booleans that holds one of them. -/
theorem suits_bools {x : Bools} (h : x.Nonempty) : (Range.bools x).Suits s Builtin.bool :=
  ⟨x, rfl, h⟩

theorem Suits.bools {r : Range} (h : r.Suits s Builtin.bool) : ∃ x, r = .bools x ∧ x.Nonempty :=
  suits_scalar.mp h

theorem not_suits {r : Range} (h : r.Suits s Builtin.bool) : r.not.Suits s Builtin.bool := by
  obtain ⟨x, rfl, hx⟩ := h.bools
  exact suits_bools (Bools.nonempty_not hx)

end Booleans

/-- The bounds of a range of values that can be compared. -/
theorem Suits.compared {s : Structs} {t : Ty} {r : Range} (ht : t ∈ Builtin.values)
    (h : r.Suits s t) : ∃ lo hi, r.bounds? = some (lo, hi) ∧ lo ≤ hi := by
  have cases : ∀ t ∈ Builtin.values, t = Builtin.bool ∨ t.bounds?.isSome = true := by decide
  rcases cases t ht with rfl | hb
  · obtain ⟨⟨f, t⟩, rfl, hx⟩ := h.bools
    refine ⟨_, _, rfl, ?_⟩
    cases f <;> cases t <;> simp [Bools.Nonempty] at hx ⊢
  · obtain ⟨⟨low, high⟩, hb⟩ := Option.isSome_iff_exists.mp hb
    obtain ⟨lo, hi, hr, -, -, hle, -⟩ := h.operand hb
    exact ⟨lo, hi, hr, hle⟩

end Range

end Gauge
