import Gauge.Proofs.Cast.Explore
import Gauge.Proofs.Ty.Native
import Gauge.Proofs.Typed.Eval

/-!
# Proofs — the builtin conversions

What the table of builtin conversions offers to a type.  Without being asked for, a value is loaded
from its storage, converted to a builtin integer type that holds every value of its range, or, if it
is a pointer, kept from writing (`Builtin.implicit_cases`).  Two conversions of integers in a row
lead nowhere that one does not, since neither changes the bounds of the range
(`Builtin.implicit_again`).
-/

namespace Gauge

/-- A range of numbers of the type, and not an empty one. -/
def Range.Spans (r : Range) (t : Ty) : Prop :=
  ∀ low high, t.bounds? = some (low, high) →
    ∃ lo hi, r.bounds? = some (lo, hi) ∧ low ≤ lo ∧ lo ≤ hi ∧ hi ≤ high

theorem Range.holds_bounds {r : Range} {lo hi : Int} (h : r.bounds? = some (lo, hi))
    (hle : lo ≤ hi) :
    r.Holds lo ∧ r.Holds hi := by
  cases r with
  | unsigned a b | signed a b =>
    cases h
    exact ⟨⟨Int.le_refl _, hle⟩, hle, Int.le_refl _⟩
  | bools s =>
    obtain ⟨f, t⟩ := s
    cases h
    cases f <;> cases t <;> simp [Range.Holds, Bools.Holds] at hle ⊢
  | pointer _ _ | array _ | void => cases h

namespace Builtin

/-! ### Integers -/

variable {p : Ty}

theorem eq_of_form {s : Structs} {a b : Ty} (ha : a ∈ all) (hb : b ∈ all)
    (h : s.form a = s.form b) : a = b := by
  obtain ⟨c, rfl, -⟩ := scalar_of_mem ha
  obtain ⟨d, rfl, -⟩ := scalar_of_mem hb
  injection h with _ hk hn hm
  exact eq_of_same ha hb (by simp [Scalar.same, hk, hn, hm])

variable {s : Structs} {R : StructRef → Prop} {a i j : Ty} {e : Edge} {range : Range} {lo hi : Int}

/-- A range fits an integer type if all its values are values of the type. -/
theorem fits_iff (hj : j ∈ integers) (hb : range.bounds? = some (lo, hi)) (hle : lo ≤ hi) :
    range.fits j = true ↔ ∀ v, range.Holds v → j.Admits v := by
  obtain ⟨low, high, hj⟩ := bounds_of_integers hj
  have hbool := Ty.not_bool_of_bounds hj
  simp only [Range.fits, hbool, hb, hj, Bool.false_eq_true, if_false, Bool.and_eq_true,
    decide_eq_true_eq]
  constructor
  · rintro ⟨hl, hh⟩ v hv
    obtain ⟨lo', hi', hb', hlv, hvh⟩ := hv.bounds
    obtain ⟨rfl, rfl⟩ := Prod.mk.inj (Option.some.inj (hb.symm.trans hb'))
    exact (Ty.admits_iff hj).mpr ⟨hl.trans hlv, hvh.trans hh⟩
  · intro h
    obtain ⟨hlo, hhi⟩ := Range.holds_bounds hb hle
    exact ⟨((Ty.admits_iff hj).mp (h lo hlo)).1, ((Ty.admits_iff hj).mp (h hi hhi)).2⟩

/-- Widening is to a type that holds all values of the other. -/
theorem widening (hi : i ∈ integers) (hj : j ∈ integers) (h : (integerCost i j).1 = .implicit)
    {low high low' high' : Int} (hib : i.bounds? = some (low, high))
    (hjb : j.bounds? = some (low', high')) : low' ≤ low ∧ high ≤ high' := by
  have table : ∀ i ∈ integers, ∀ j ∈ integers, (integerCost i j).1 = .implicit →
      (i.bounds?.any fun p => j.bounds?.any fun p' =>
        decide (p'.1 ≤ p.1) && decide (p.2 ≤ p'.2)) = true := by
    decide +kernel
  have := table i hi j hj h
  rw [hib, hjb] at this
  simpa using this

/-- An integer is converted without being asked for exactly if its range fits. -/
theorem usable_integerEdge (hi : i ∈ integers) (hj : j ∈ integers) (hr : range.Spans i) :
    (integerEdge i j).usable range false = true ↔ range.fits j = true := by
  have policy : (integerEdge i j).policy = .implicit ∨
      (integerEdge i j).policy = .implicitInRange := by
    have table : ∀ i ∈ integers, ∀ j ∈ integers, (integerEdge i j).policy = .implicit ∨
        (integerEdge i j).policy = .implicitInRange := by
      decide +kernel
    exact table i hi j hj
  rcases policy with hp | hp
  · -- a widened range fits anyway
    obtain ⟨low, high, hib⟩ := bounds_of_integers hi
    obtain ⟨low', high', hjb⟩ := bounds_of_integers hj
    obtain ⟨lo, hi', hb, hl, hle, hh⟩ := hr low high hib
    obtain ⟨hlow, hhigh⟩ := widening hi hj hp hib hjb
    have fits : range.fits j = true := by
      rw [fits_iff hj hb hle]
      intro v hv
      obtain ⟨lo₁, hi₁, hb₁, hlv, hvh⟩ := hv.bounds
      obtain ⟨rfl, rfl⟩ := Prod.mk.inj (Option.some.inj (hb.symm.trans hb₁))
      exact (Ty.admits_iff hjb).mpr ⟨by omega, by omega⟩
    unfold Edge.usable
    rw [hp]
    simp [fits]
  · unfold Edge.usable
    rw [hp]
    simp [integerEdge]

/-- A range that fits keeps its bounds. -/
theorem rangeAfter_integerEdge (s : Structs) (i : Ty) (hj : j ∈ integers)
    (hb : range.bounds? = some (lo, hi)) (hle : lo ≤ hi) (hf : range.fits j = true) :
    ∃ r, s.rangeAfter (integerEdge i j) range = .ok r ∧ r.bounds? = some (lo, hi) := by
  obtain ⟨low, high, hjb⟩ := bounds_of_integers hj
  obtain ⟨hlo, hhi⟩ := Range.holds_bounds hb hle
  have admits := (fits_iff hj hb hle).mp hf
  have hl := ((Ty.admits_iff hjb).mp (admits lo hlo)).1
  have hh := ((Ty.admits_iff hjb).mp (admits hi hhi)).2
  refine ⟨.ofBounds j lo hi, ?_,
    Range.bounds_ofBounds (word_of_mem (mem_all_of_integers hj)) hjb hl hle hh⟩
  show s.convertedRange range j = _
  rw [Structs.convertedRange, hb]
  simp only [hf, if_true, Range.integer, hjb]
  rw [if_pos ⟨hl, hle, hh⟩]

/-- Converting an integer to a type that has it changes nothing. -/
theorem perform_integerEdge (hi : i ∈ integers) (hj : j ∈ integers) (m : Memory) {v : Int}
    (hvi : i.Admits v) (hvj : j.Admits v) :
    (integerEdge i j).action.perform? m i j (.int v) = some (.int v) := by
  obtain ⟨low, high, hib⟩ := bounds_of_integers hi
  obtain ⟨low', high', hjb⟩ := bounds_of_integers hj
  have here := Ty.wrap_eq_self (word_of_mem (mem_all_of_integers hi)) hib hvi
  have there := Ty.wrap_eq_self (word_of_mem (mem_all_of_integers hj)) hjb hvj
  obtain ⟨c, rfl, -⟩ := scalar_of_mem (mem_all_of_integers hi)
  show (integerAction _ j).perform? m _ j (.int v) = _
  unfold integerAction
  dsimp only
  split
  · simp [CastAction.perform?, IntegerConversion.perform?, Value.int?,
      IntegerConversion.run?, there]
  · split
    · split
      · next hs =>
        have hk : c.kind = .signedInt := by simpa [Ty.isSigned, Ty.hasKind, Ty.scalar?] using hs
        have hv : v.bmod (2 ^ (c.size.toNat * 8)) = v := by
          simpa [Ty.wrap?, Ty.scalar?, hk] using here
        simp [CastAction.perform?, IntegerConversion.perform?, Value.int?, IntegerConversion.run?,
          Ty.bits, Ty.scalar?, hv, there]
      · next hs =>
        have hv : v % 2 ^ (c.size.toNat * 8) = v := by
          have kinds : ∀ t ∈ integers, t.isSigned = false → t.hasKind .unsignedInt = true := by
            decide
          have hk : c.kind = .unsignedInt := by
            simpa [Ty.hasKind, Ty.scalar?] using kinds _ hi (by simpa using hs)
          simpa [Ty.wrap?, Ty.scalar?, hk] using here
        simp [CastAction.perform?, IntegerConversion.perform?, Value.int?, IntegerConversion.run?,
          Ty.bits, Ty.scalar?, hv, there]
    · simp [CastAction.perform?, IntegerConversion.perform?, Value.int?, IntegerConversion.run?,
        there]

/-! ### The table -/

/-- The builtin conversions are grouped by their sources. -/
theorem casts_grouped (s : Structs) (R : StructRef → Prop) : casts.Grouped s R where
  source g hg := by
    obtain ⟨c, hc, -⟩ := scalar_of_mem (mem_all_of_values (mem_castGroups hg).1)
    rw [hc]
    trivial
  form_eq g hg e he := by rw [((mem_castGroups hg).2 e he).2]
  destination g hg e he := by
    obtain ⟨c, hc, -⟩ :=
      scalar_of_mem (mem_all_of_values ((mem_castGroups hg).2 e he).1.destination)
    rw [hc]
    trivial
  apart := by
    have sources : castGroups.Pairwise fun g h => g.source ≠ h.source := by decide +kernel
    refine sources.imp_of_mem fun hg hh hne hf => hne ?_
    exact eq_of_form (mem_all_of_values (mem_castGroups hg).1)
      (mem_all_of_values (mem_castGroups hh).1) hf
  plain b hb := by
    simp only [casts, List.mem_cons, CastFamily.pointerToBool.injEq, List.not_mem_nil, or_false,
      reduceCtorEq, false_or] at hb
    exact ⟨_, hb⟩

/-- The conversion that keeps a pointer from writing. -/
def dropEdge (a p : Ty) : Edge :=
  ⟨a, .pointerTo p.notMutable, .step 1, .implicit, .reinterpret, .preserve⟩

/-- The conversion that asks whether a pointer is null. -/
def testEdge (a : Ty) : Edge := ⟨a, bool, .step 1, .explicitOnly, .pointerToBool, .nonNull⟩

/-- What a value can be converted to, asked for or not. -/
theorem offers_cases (hR : s.Tells R) (ha : a.Over R) (hf : a.isFlagged = false)
    (ho : casts.Offers s a e) :
    (∃ g ∈ castGroups, s.form a = s.form g.source ∧ e ∈ g.edges) ∨
      ∃ stamp p, a = .pointer .none stamp p ∧
        ((p.isMutable = true ∧ e = dropEdge a p) ∨ e = testEdge a) := by
  rcases ho with ⟨g, hg, hc, he⟩ | ⟨f, hfm, hfe⟩ | ⟨hf', -⟩
  · have form := (Structs.compare_eq_true_iff hR ha ((casts_grouped s R).source g hg)).mp hc
    exact .inl ⟨g, hg, form, he⟩
  · simp only [casts, List.mem_cons, List.not_mem_nil, or_false] at hfm
    obtain ⟨stamp, p, rfl, -, -⟩ := CastFamily.edge?_cases hfe
    refine .inr ⟨stamp, p, rfl, ?_⟩
    rcases hfm with rfl | rfl
    · simp only [CastFamily.edge?, Flags.none] at hfe
      split at hfe
      · next hm =>
        cases hfe
        exact .inl ⟨hm, rfl⟩
      · cases hfe
    · cases hfe
      exact .inr rfl
  · cases hf'.symm.trans hf

/-- What a value is converted to without being asked for. -/
theorem implicit_cases (hR : s.Tells R) (ha : a.Over R) (hf : a.isFlagged = false)
    (ho : casts.Offers s a e) (hu : e.usable range false = true) :
    (∃ i j, i ∈ integers ∧ j ∈ integers ∧ j ≠ i ∧ s.form a = s.form i ∧ e = integerEdge i j) ∨
    ∃ stamp p, a = .pointer .none stamp p ∧ p.isMutable = true ∧ e = dropEdge a p := by
  have notExplicit : e.policy ≠ .explicitOnly := by
    intro h
    unfold Edge.usable at hu
    rw [h] at hu
    cases hu
  rcases offers_cases hR ha hf ho with ⟨g, hg, form, he⟩ | ⟨stamp, p, rfl, ⟨hm, rfl⟩ | rfl⟩
  · left
    rcases List.mem_append.mp hg with hg | hg
    · obtain ⟨i, hi, rfl⟩ := List.mem_map.mp hg
      rcases List.mem_append.mp he with he | he
      · obtain ⟨j, hj, rfl⟩ := List.mem_map.mp he
        obtain ⟨hj, hne⟩ := List.mem_filter.mp hj
        refine ⟨i, j, hi, hj, ?_, form, rfl⟩
        rintro rfl
        simp at hne
      · unfold charEdges at he
        split at he
        · rw [List.mem_singleton.mp he] at notExplicit
          exact absurd rfl notExplicit
        · cases he
    · simp only [List.mem_cons, List.not_mem_nil, or_false] at hg
      rcases hg with rfl | rfl
      · obtain ⟨j, -, rfl⟩ := List.mem_map.mp he
        exact absurd rfl notExplicit
      · rw [List.mem_singleton.mp he] at notExplicit
        exact absurd rfl notExplicit
  · exact .inr ⟨stamp, p, rfl, hm, rfl⟩
  · exact absurd rfl notExplicit

/-- An integer type is offered every other. -/
theorem offers_integerEdge (hR : s.Tells R) (ha : a.Over R) (hi : i ∈ integers) (hj : j ∈ integers)
    (hne : j ≠ i) (hf : s.form a = s.form i) : casts.Offers s a (integerEdge i j) := by
  have hg : (⟨i, integerEdges i ++ charEdges i⟩ : CastGroup) ∈ casts.groups :=
    List.mem_append_left _ (List.mem_map_of_mem hi)
  have hc := (Structs.compare_eq_true_iff hR ha ((casts_grouped s R).source _ hg)).mpr hf
  refine .inl ⟨_, hg, hc, List.mem_append_left _ (List.mem_map_of_mem ?_)⟩
  have texts : ∀ i ∈ integers, ∀ j ∈ integers, i.text = j.text → j = i := by decide +kernel
  refine List.mem_filter.mpr ⟨hj, ?_⟩
  rw [bne_iff_ne]
  exact fun h => hne (texts i hi j hj h)

theorem offers_dropEdge {stamp : Stamp} (hm : p.isMutable = true) :
    casts.Offers s (.pointer .none stamp p) (dropEdge (.pointer .none stamp p) p) :=
  .inr (.inl ⟨.dropMutable, .head _, if_pos hm⟩)

/-- Storage can only be loaded. -/
theorem offers_flagged (hR : s.Tells R) (ha : a.Over R) (hf : a.isFlagged = true)
    (ho : casts.Offers s a e) : e = .decay a := by
  rcases ho with ⟨g, hg, hc, he⟩ | ⟨f, hfm, hfe⟩ | ⟨-, rfl⟩
  · have form := (Structs.compare_eq_true_iff hR ha ((casts_grouped s R).source g hg)).mp hc
    rw [Structs.isFlagged_eq_of_form form,
      Ty.isFlagged_of_mem (mem_all_of_values (mem_castGroups hg).1)] at hf
    cases hf
  · obtain ⟨stamp, p, rfl, -⟩ := CastFamily.edge?_cases hfe
    cases hf
  · rfl

/-- A type of the form of a pointer is a pointer. -/
theorem pointer_of_form {f : Flags} {stamp : Stamp} (h : s.form a = s.form (.pointer f stamp p)) :
    ∃ stamp' p', a = .pointer f stamp' p' ∧ s.form p' = s.form p := by
  cases a with
  | pointer g stamp' p' =>
    injection h with hf hp
    exact ⟨stamp', p', by rw [hf], hp⟩
  | scalar _ _ | function _ _ _ _ _ | struct _ _ => cases h

theorem form_loosened {p' : Ty} (h : s.form p = s.form p') :
    s.form (.pointerTo p.notMutable) = s.form (.pointerTo p'.notMutable) := by
  simp only [Ty.pointerTo, Structs.form, Ty.notMutable, Structs.form_withFlags, h,
    Structs.flags_eq_of_form h]

theorem isMutable_eq_of_form {p' : Ty} (h : s.form p = s.form p') : p.isMutable = p'.isMutable := by
  rw [Ty.isMutable, Ty.isMutable, Structs.flags_eq_of_form h]

/-- A conversion that nobody asks for is one step to another type of values. -/
theorem implicit_leaves (hR : s.Tells R) (ha : a.Over R) (hf : a.isFlagged = false)
    (ho : casts.Offers s a e) (hu : e.usable range false = true) :
    s.form e.destination ≠ s.form a ∧ e.destination.isFlagged = false ∧
      e.weight.length.toNat = 1 := by
  rcases implicit_cases hR ha hf ho hu with ⟨i, j, hi, hj, hne, hform, rfl⟩ |
    ⟨stamp, p, rfl, hm, rfl⟩
  · refine ⟨fun h => hne ?_, Ty.isFlagged_of_mem (mem_all_of_integers hj), rfl⟩
    exact eq_of_form (mem_all_of_integers hj) (mem_all_of_integers hi) (h.trans hform)
  · refine ⟨fun h => ?_, rfl, rfl⟩
    injection h with _ h
    rw [← isMutable_eq_of_form h, Ty.isMutable, Ty.notMutable, Ty.flags_withFlags] at hm
    cases hm

theorem bounds_eq_of_form {a b : Ty} (h : s.form a = s.form b) : a.bounds? = b.bounds? := by
  cases a with
  | scalar f c =>
    cases b with
    | scalar g d =>
      injection h with _ hk hn
      simp [Ty.bounds?, Ty.scalar?, Scalar.bounds?, hk, hn]
    | pointer _ _ _ | function _ _ _ _ _ | struct _ _ => cases h
  | pointer _ _ _ | function _ _ _ _ _ | struct _ _ =>
    cases b with
    | scalar _ _ => cases h
    | _ => rfl

theorem bounds_bare (a : Ty) : a.bare.bounds? = a.bounds? := by
  cases a <;> rfl

end Builtin

namespace Range.Spans

variable {s : Structs} {r : Range} {a b : Ty}

theorem of_form (h : r.Spans a) (hab : s.form a = s.form b) : r.Spans b := fun low high hb =>
  h low high ((Builtin.bounds_eq_of_form hab).trans hb)

theorem bare (h : r.Spans a) : r.Spans a.bare := fun low high hb =>
  h low high ((Builtin.bounds_bare a).symm.trans hb)

end Range.Spans

namespace Builtin

/-! ### Conversions that nobody asks for -/

section Implicit

variable {s : Structs} {R : StructRef → Prop} {a b i j : Ty} {e : Edge} {range range' : Range}

/-- Whether a range fits an integer type is a matter of its bounds. -/
theorem fits_eq_of_bounds (hj : j ∈ integers) (h : range.bounds? = range'.bounds?) :
    range.fits j = range'.fits j := by
  obtain ⟨low, high, hjb⟩ := bounds_of_integers hj
  simp [Range.fits, Ty.not_bool_of_bounds hjb, h]

/-- The bounds of a range of integers. -/
theorem spans_integer (hspans : range.Spans i) (hi : i ∈ integers) :
    ∃ lo hi, range.bounds? = some (lo, hi) ∧ lo ≤ hi := by
  obtain ⟨low, high, hib⟩ := bounds_of_integers hi
  obtain ⟨lo, hi, hb, -, hle, -⟩ := hspans low high hib
  exact ⟨lo, hi, hb, hle⟩

/-- The range after the conversion of an integer spans its type and has the same bounds. -/
theorem spans_converted (hspans : range.Spans i) (hi : i ∈ integers) (hj : j ∈ integers)
    (hu : (integerEdge i j).usable range false = true) :
    ∃ range', s.rangeAfter (integerEdge i j) range = .ok range' ∧ range'.bounds? = range.bounds? ∧
      range'.Spans j := by
  obtain ⟨lo, hi', hb, hle⟩ := spans_integer hspans hi
  have hf := (usable_integerEdge hi hj hspans).mp hu
  obtain ⟨r, hr, hrb⟩ := rangeAfter_integerEdge s i hj hb hle hf
  refine ⟨r, hr, hrb.trans hb.symm, fun low high hjb => ⟨lo, hi', hrb, ?_, hle, ?_⟩⟩
  · exact ((Ty.admits_iff hjb).mp ((fits_iff hj hb hle).mp hf lo (Range.holds_bounds hb hle).1)).1
  · exact ((Ty.admits_iff hjb).mp ((fits_iff hj hb hle).mp hf hi' (Range.holds_bounds hb hle).2)).2

variable (hR : s.Tells R) (ha : a.Over R) (hf : a.isFlagged = false)

include hR ha hf

/-- A conversion keeps the bounds of the range. -/
theorem rangeAfter_implicit (hspans : range.Spans a) (ho : casts.Offers s a e)
    (hu : e.usable range false = true) :
    ∃ range', s.rangeAfter e range = .ok range' ∧ range'.bounds? = range.bounds? := by
  rcases implicit_cases hR ha hf ho hu with ⟨i, j, hi, hj, -, hform, rfl⟩ | ⟨stamp, p, -, -, rfl⟩
  · obtain ⟨r, hr, hrb, -⟩ := spans_converted (hspans.of_form hform) hi hj hu
    exact ⟨r, hr, hrb⟩
  · exact ⟨range, rfl, rfl⟩

/-- A conversion changes no value of the range. -/
theorem exact_implicit (hspans : range.Spans a) (ho : casts.Offers s a e)
    (hu : e.usable range false = true) (m : Memory) {v : Int} (hv : range.Holds v) :
    e.action.perform? m e.source e.destination (.int v) = some (.int v) := by
  rcases implicit_cases hR ha hf ho hu with ⟨i, j, hi, hj, -, hform, rfl⟩ | ⟨stamp, p, -, -, rfl⟩
  · have hspans := hspans.of_form hform
    obtain ⟨low, high, hib⟩ := bounds_of_integers hi
    obtain ⟨lo, hi', hb, hlow, hle, hhigh⟩ := hspans low high hib
    have fits := (fits_iff hj hb hle).mp ((usable_integerEdge hi hj hspans).mp hu)
    refine perform_integerEdge hi hj m ?_ (fits v hv)
    -- a value of the range is one of the type it is a range of
    obtain ⟨lo₁, hi₁, hb₁, hlv, hvh⟩ := hv.bounds
    obtain ⟨rfl, rfl⟩ := Prod.mk.inj (Option.some.inj (hb.symm.trans hb₁))
    exact (Ty.admits_iff hib).mpr ⟨hlow.trans hlv, hvh.trans hhigh⟩
  · rfl

/-- Types of one form are converted to types of one form. -/
theorem implicit_transfer (hb : b.Over R) (hab : s.form a = s.form b) (ho : casts.Offers s a e)
    (hu : e.usable range false = true) :
    ∃ e', casts.Offers s b e' ∧ e'.usable range false = true ∧ e'.weight.length.toNat = 1 ∧
      s.form e'.destination = s.form e.destination ∧
      s.rangeAfter e' range = s.rangeAfter e range := by
  rcases implicit_cases hR ha hf ho hu with ⟨i, j, hi, hj, hne, hform, rfl⟩ |
    ⟨stamp, p, rfl, hm, rfl⟩
  · exact ⟨_, offers_integerEdge hR hb hi hj hne (hab.symm.trans hform), hu, rfl, rfl, rfl⟩
  · obtain ⟨stamp', p', rfl, hp⟩ := pointer_of_form hab.symm
    exact ⟨_, offers_dropEdge ((isMutable_eq_of_form hp).trans hm), rfl, rfl, form_loosened hp, rfl⟩

/-- Behind a converted value there are only types that the value itself can be converted to, and the
type it was converted from. -/
theorem implicit_again (hspans : range.Spans a) {x : Ty} {e₁ : Edge} (hx : x.Over R)
    (ho₁ : casts.Offers s a e₁) (hu₁ : e₁.usable range false = true)
    (hr₁ : s.rangeAfter e₁ range = .ok range') (ht : s.form x = s.form e₁.destination)
    (ho : casts.Offers s x e) (hu : e.usable range' false = true) :
    e.weight.length.toNat = 1 ∧ (∃ range₂, s.rangeAfter e range' = .ok range₂) ∧
      (s.form e.destination = s.form a ∨
        ∃ e₀, casts.Offers s a e₀ ∧ e₀.usable range false = true ∧
          s.form e₀.destination = s.form e.destination) := by
  have hflag := (implicit_leaves hR ha hf ho₁ hu₁).2.1
  have hxf : x.isFlagged = false := (Structs.isFlagged_eq_of_form ht).trans hflag
  rcases implicit_cases hR ha hf ho₁ hu₁ with
    ⟨i, j, hi, hj, hne, hform, rfl⟩ | ⟨stamp, p, hp, hm, rfl⟩
  · have hspans := hspans.of_form hform
    obtain ⟨r, hr, hbounds, hspans'⟩ := spans_converted (s := s) hspans hi hj hu₁
    cases hr.symm.trans hr₁
    rcases implicit_cases hR hx hxf ho hu with ⟨i', k, hi₁, hk, hne', hform', rfl⟩ | ⟨_, _, rfl, -⟩
    · obtain rfl : j = i' :=
        eq_of_form (mem_all_of_integers hj) (mem_all_of_integers hi₁) (ht.symm.trans hform')
      obtain ⟨r₂, hr₂, -⟩ := spans_converted (s := s) hspans' hj hk hu
      refine ⟨rfl, ⟨r₂, hr₂⟩, ?_⟩
      by_cases hki : k = i
      · subst hki
        exact .inl hform.symm
      · refine .inr ⟨integerEdge i k, offers_integerEdge hR ha hi hk hki hform, ?_, rfl⟩
        rw [usable_integerEdge hi hk hspans, ← fits_eq_of_bounds hk hbounds]
        exact (usable_integerEdge hj hk hspans').mp hu
    · obtain ⟨c, rfl, -⟩ := scalar_of_mem (mem_all_of_integers hj)
      cases ht
  · rcases implicit_cases hR hx hxf ho hu with ⟨i', k, hi₁, hk, hne', hform', rfl⟩ |
      ⟨_, p', rfl, hm', -⟩
    · obtain ⟨c, rfl, -⟩ := scalar_of_mem (mem_all_of_integers hi₁)
      cases ht.symm.trans hform'
    · -- what is behind the pointer is not `mut` any more
      injection ht with _ ht
      rw [isMutable_eq_of_form ht, Ty.isMutable, Ty.notMutable, Ty.flags_withFlags] at hm'
      cases hm'

end Implicit

end Builtin

end Gauge
