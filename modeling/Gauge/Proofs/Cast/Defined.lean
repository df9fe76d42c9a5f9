import Gauge.Proofs.Cast.Implicit
import Gauge.Proofs.Range.Hull

/-!
# Proofs — searches between the types of a program

Types of a program can be compared without looking into their structs, since no two of these have
one name.  A range that suits a type is turned by every conversion into one that suits the type
which the conversion leads to.  So a search between types of a program always has an answer
(`Builtin.search_native`), and the chain that it finds leaves a range that suits the destination.
-/

namespace Gauge

variable {K : StructRef → Prop} {s : Structs}

/-! ### One conversion -/

/-- The integers of a range can be converted to any type of integers. -/
theorem Structs.convertedRange_suits (hs : s.Native K) {t : Ty} {range : Range}
    {low high lo hi : Int} (hw : t.Word) (ht : t.Native K) (hb : t.bounds? = some (low, high))
    (hr : range.bounds? = some (lo, hi)) (hle : lo ≤ hi) :
    ∃ r, s.convertedRange range t = .ok r ∧ r.Suits s t := by
  by_cases hf : range.fits t = true
  · simp only [convertedRange, hr, if_pos hf]
    simp only [Range.fits, Ty.not_bool_of_bounds hb, hr, hb, Bool.false_eq_true, if_false,
      Bool.and_eq_true, decide_eq_true_eq] at hf
    exact Range.integer_suits hw hb hf.1 hle hf.2
  · by_cases he : lo = hi
    · obtain rfl := he
      obtain ⟨w, hwrap⟩ := Ty.wrap_of_bounds hb lo
      obtain ⟨hl, hh⟩ := (Ty.admits_iff hb).mp (Ty.admits_wrap hw hwrap)
      rw [convertedRange_single hw hr (by simpa using hf) hwrap]
      exact Range.literal_suits hw hb hl hh
    · simp only [convertedRange, hr, if_neg hf, if_neg he]
      exact ⟨_, rfl, rangeOf_suits hs ht⟩

namespace Builtin

/-- Every conversion of a type of the program tells a range that suits what it leads to. -/
theorem rangeAfter_suits (hK : StructRef.Distinct K) (hs : s.Native K) {a : Ty} {e : Edge}
    {range : Range} (ha : a.Native K) (hr : range.Suits s a) (ho : casts.Offers s a e) :
    ∃ range', s.rangeAfter e range = .ok range' ∧ range'.Suits s e.destination := by
  have preserved : e.rule = .preserve → range.Suits s e.destination →
      ∃ range', s.rangeAfter e range = .ok range' ∧ range'.Suits s e.destination := by
    intro hrule h
    refine ⟨range, ?_, h⟩
    unfold Structs.rangeAfter
    rw [hrule]
    rfl
  rcases ho with ⟨g, hg, hc, he⟩ | ⟨f, hf, hfe⟩ | ⟨-, rfl⟩
  · obtain ⟨hsource, hedges⟩ := mem_castGroups hg
    obtain ⟨conversion, -⟩ := hedges e he
    obtain rfl := Structs.eq_of_compare hK ha (Ty.native_of_mem (mem_all_of_values hsource)) hc
    obtain ⟨low, high, hb⟩ := conversion.bounds
    obtain ⟨lo, hi, hrb, hle⟩ := hr.compared hsource
    have hd := mem_all_of_values conversion.destination
    unfold Structs.rangeAfter
    rw [conversion.rule]
    exact Structs.convertedRange_suits hs (word_of_mem hd) (Ty.native_of_mem hd) hb hrb hle
  · simp only [casts, List.mem_cons, List.not_mem_nil, or_false] at hf
    obtain ⟨stamp, p, rfl, -⟩ := CastFamily.edge?_cases hfe
    obtain ⟨q, x, rfl, hq, hx⟩ := Range.suits_pointer.mp hr
    rcases hf with rfl | rfl
    · simp only [CastFamily.edge?, Flags.none] at hfe
      split at hfe
      · cases hfe
        exact preserved rfl ⟨Range.suits_withFlags.mpr hq, hx⟩
      · cases hfe
    · cases hfe
      exact ⟨.bools x, rfl, Range.suits_bools hx⟩
  · exact preserved rfl (Range.suits_withFlags.mpr hr)

/-! ### Searches -/

variable {q : CastQuery} {source : Ty} {range : Range} {rs : List Reached}
  {taken : List (Nat × Edge)} (hK : StructRef.Distinct K) (hs : s.Native K)
  (hsource : source.Native K) (hrange : range.Suits s source)

include hK hs hsource hrange

/-- Every type that a search reaches is one of the program, and is reached with a range that suits
it. -/
theorem explored_suits (h : casts.Explored s q source range rs taken) :
    ∀ x ∈ rs, x.type.Native K ∧ x.range.Suits s x.type := by
  refine h.all (P := fun a r => a.Native K ∧ r.Suits s a) (hK.tells s) (casts_grouped s K)
    hsource.toOver ⟨hsource, hrange⟩ ?_ ?_
  · rintro a b r r' ⟨ha, -⟩ ⟨hb, hr⟩ hf
    obtain rfl := Structs.eq_of_form hK ha hb hf
    exact ⟨hb, hr⟩
  · rintro a e r r' - ⟨ha, hr⟩ ho hr'
    obtain ⟨_, hr'', hsuits⟩ := rangeAfter_suits hK hs ha hr ho
    cases hr'.symm.trans hr''
    exact ⟨(casts_closed_native hK s).destination ha ho, hsuits⟩

/-- A search between types of a program has an answer; a chain that it finds ends at the
destination, with a range that suits it. -/
theorem search_native (hd : q.destination.Native K) :
    ∃ found, (casts.search s source range q).outcome = .ok found ∧
      ∀ c tied, found = .chain c tied →
        (Step.rangeAfter range c.steps).Suits s q.destination := by
  have hR := hK.tells s
  have ranged : casts.Ranged s q source range := by
    intro rs taken h x hx e ht
    obtain ⟨hn, hsuits⟩ := explored_suits hK hs hsource hrange h x hx
    obtain ⟨range', hr, -⟩ := rangeAfter_suits hK hs hn hsuits ht.offered
    exact ⟨range', hr⟩
  obtain ⟨rs, taken, found, hrun, hex, -, hends⟩ :=
    CastTable.search_explored hR (casts_grouped s K) hsource.toOver hd.toOver ranged
  refine ⟨found, hrun, ?_⟩
  intro c tied hfound
  cases hends with
  | exhausted _ => cases hfound
  | @found place r hn hrd =>
    cases hfound
    have hr := List.mem_of_getElem? (Reached.nearest_spec hn).1
    obtain ⟨hrn, hsuits⟩ := explored_suits hK hs hsource hrange hex r hr
    have sound := (hex.charted hR (casts_grouped s K) hsource.toOver).sound r hr
    rw [sound.range_eq, ← Structs.eq_of_form hK hrn hd hrd]
    exact hsuits

end Builtin

end Gauge
