import Gauge.Proofs.Cast.Layers

/-!
# Proofs — conversions that nobody asks for

A search that nobody asks for finds what lies one conversion behind the loaded value, and nothing
else (`Builtin.Spread`).

Main statement: `Builtin.search_implicit`.
-/

namespace Gauge

namespace Builtin

variable {s : Structs} {R : StructRef → Prop} {source : Ty} {range : Range} {q : CastQuery}
  {rs : List Reached} {taken : List (Nat × Edge)}

/-! ### What a search reaches -/

/-- A type that the search reaches is the source, the type of the loaded value, or one conversion
behind that. -/
def Near (s : Structs) (source : Ty) (range : Range) (x : Reached) : Prop :=
  (s.form x.type = s.form source ∧ x.range = range) ∨
    Beside s source.bare range (s.form x.type) x.range x.chain

/-- All types are near, there is one way to each of them, and in the end none of them is left out.
-/
structure Spread (s : Structs) (q : CastQuery) (source : Ty) (range : Range) (rs : List Reached)
    (taken : List (Nat × Edge)) : Prop where
  near : ∀ x ∈ rs, Near s source range x
  untied : ∀ x ∈ rs, x.tied = false
  reaches : casts.Done s q rs taken → (∀ x ∈ rs, x.settled = true) →
    ∀ {d r c}, Beside s source.bare range d r c → ∃ x ∈ rs, s.form x.type = d

section Search

variable (hR : s.Tells R) (hs : source.Over R) (hspans : range.Spans source)
  (hq : q.explicit = false) (hl : 3 ≤ q.limit.length.toNat)

include hR hs hspans hq hl

/-- This holds in every state of a search. -/
theorem spread_of_explored (h : casts.Explored s q source range rs taken) :
    Spread s q source range rs taken := by
  obtain ⟨depth, home, Fit, layers, first, back, into⟩ := layers_loaded hR hs hspans hq
  have hc := h.charted hR (casts_grouped s R) hs
  have layered := CastTable.layered_of_explored layers hR (casts_grouped s R) hs first h
  refine ⟨fun x hx => back (layered.fit x hx), layered.untied, ?_⟩
  intro done hall d r c hd
  obtain ⟨hfit, hdepth⟩ := into hd
  refine layered.place layers hc (m := 2) ?_ (by omega) _ hfit rfl hdepth
  exact fun i x e hi _ ht => done i x e hi (hall x (List.mem_of_getElem? hi)) ht

/-- The builtin conversions that a search takes tell the range of their result. -/
theorem casts_ranged : casts.Ranged s q source range := by
  intro rs taken h x hx e ht
  have hbare : source.bare.Over R := Ty.over_withFlags.mpr hs
  have hflag : source.bare.isFlagged = false := Ty.isFlagged_bare source
  have hu : e.usable x.range false = true := hq ▸ ht.usable
  have hmem := ((h.charted hR (casts_grouped s R) hs).sound x hx).mem
  cases hxf : x.type.isFlagged with
  | true =>
    obtain rfl := offers_flagged hR hmem hxf ht.offered
    exact ⟨x.range, rfl⟩
  | false =>
    have plain : ∀ {a : Ty}, range.Spans a → s.form x.type = s.form a → x.range = range →
        ∃ range', s.rangeAfter e x.range = .ok range' := by
      intro a hspans hd hr
      rw [hr] at hu ⊢
      obtain ⟨range', hr', -⟩ :=
        rangeAfter_implicit hR hmem hxf (hspans.of_form hd.symm) ht.offered hu
      exact ⟨range', hr'⟩
    rcases (spread_of_explored hR hs hspans hq hl h).near x hx with ⟨hd, hr⟩ | beside
    · exact plain hspans hd hr
    · generalize hd : s.form x.type = d, hr : x.range = r at beside
      cases beside with
      | self _ => exact hr ▸ plain hspans.bare hd hr
      | converted ho₁ hu₁ hr₁ _ =>
        rw [hr] at hu
        exact (implicit_again hR hbare hflag hspans.bare hmem ho₁ hu₁ hr₁ hd ht.offered hu).2.1

end Search

/-! ### What is found -/

/-- What a value becomes without being asked for. -/
inductive Becomes (s : Structs) (source : Ty) (range : Range) (destination : Ty) : Prop
  /-- The value is loaded. -/
  | value (hf : source.isFlagged = true) (h : s.form source.bare = s.form destination)
  /-- Every value of the range is one of the other type. -/
  | integer {i j : Ty} (hi : i ∈ integers) (hj : j ∈ integers) (h : s.form source.bare = s.form i)
      (h' : s.form destination = s.form j) (fits : ∀ v, range.Holds v → destination.Admits v)
  /-- What the pointer points to is no longer written. -/
  | pointer {stamp : Stamp} {p : Ty} (h : source.bare = .pointer .none stamp p)
      (hm : p.isMutable = true) (h' : s.form destination = s.form (.pointerTo p.notMutable))

theorem admits_iff_of_form {a b : Ty} {v : Int} (ha : a.bounds? ≠ none) (h : s.form a = s.form b) :
    a.Admits v ↔ b.Admits v := by
  obtain ⟨⟨low, high⟩, hb⟩ := Option.ne_none_iff_exists'.mp ha
  rw [Ty.admits_iff hb, Ty.admits_iff ((bounds_eq_of_form h).symm.trans hb)]

/-- There is a conversion to what the loaded value becomes, and no other. -/
theorem becomes_iff (hR : s.Tells R) (hs : source.Over R) (hspans : range.Spans source)
    {destination : Ty} (hne : s.form source.bare ≠ s.form destination) :
    Becomes s source range destination ↔ ∃ e, casts.Offers s source.bare e ∧
      e.usable range false = true ∧ s.form destination = s.form e.destination := by
  have hbare : source.bare.Over R := Ty.over_withFlags.mpr hs
  have admits : ∀ {j : Ty}, j ∈ integers → s.form destination = s.form j →
      ∀ v, destination.Admits v ↔ j.Admits v := by
    intro j hj h v
    obtain ⟨low, high, hb⟩ := bounds_of_integers hj
    exact admits_iff_of_form (by rw [bounds_eq_of_form h, hb]; exact Option.some_ne_none _) h
  constructor
  · rintro (⟨-, h⟩ | ⟨hi, hj, h, h', fits⟩ | ⟨h, hm, h'⟩)
    · exact absurd h hne
    · rename_i i j
      have hspansᵢ := hspans.bare.of_form h
      obtain ⟨lo, hi', hb, hle⟩ := spans_integer hspansᵢ hi
      refine ⟨integerEdge i j, offers_integerEdge hR hbare hi hj ?_ h, ?_, h'⟩
      · rintro rfl
        exact hne (h.trans h'.symm)
      · rw [usable_integerEdge hi hj hspansᵢ, fits_iff hj hb hle]
        exact fun v hv => (admits hj h' v).mp (fits v hv)
    · rename_i stamp p
      rw [h]
      exact ⟨_, offers_dropEdge hm, rfl, h'⟩
  · rintro ⟨e, ho, hu, h'⟩
    rcases implicit_cases hR hbare (Ty.isFlagged_bare source) ho hu with
      ⟨i, j, hi, hj, -, hform, rfl⟩ | ⟨stamp, p, hp, hm, rfl⟩
    · have hspansᵢ := hspans.bare.of_form hform
      obtain ⟨lo, hi', hb, hle⟩ := spans_integer hspansᵢ hi
      have fits := (fits_iff hj hb hle).mp ((usable_integerEdge hi hj hspansᵢ).mp hu)
      exact .integer hi hj hform h' fun v hv => (admits hj h' v).mpr (fits v hv)
    · exact .pointer hp hm h'

/-- What is known of the chain to another type. -/
theorem Near.chain (hR : s.Tells R) (hs : source.Over R) (hspans : range.Spans source) {x : Reached}
    {destination : Ty} (h : Near s source range x) (hd : s.form x.type = s.form destination)
    (hne : s.form source ≠ s.form destination) :
    Becomes s source range destination ∧ x.chain.steps.length ≤ 2 ∧
      Step.Exact range x.chain.steps ∧
      (Step.rangeAfter range x.chain.steps).bounds? = range.bounds? := by
  have hbare : source.bare.Over R := Ty.over_withFlags.mpr hs
  have hflag : source.bare.isFlagged = false := Ty.isFlagged_bare source
  have beside := h.resolve_left fun h => hne (h.1.symm.trans hd)
  rw [hd] at beside
  generalize hform : s.form destination = d, x.range = r at beside
  cases beside with
  | self hc =>
    have flagged : source.isFlagged = true := by
      by_contra hn
      rw [Ty.bare_eq_self (Bool.eq_false_iff.mpr hn)] at hform
      exact hne hform.symm
    exact ⟨.value flagged hform.symm, Nat.le_succ_of_le hc.short, hc.steps, by rw [hc.range_eq]⟩
  | @converted e _ _ ho hu hr hc =>
    have hleaves := (implicit_leaves hR hbare hflag ho hu).1
    obtain ⟨range₁, hr₁, hbounds⟩ := rangeAfter_implicit hR hbare hflag hspans.bare ho hu
    cases hr.symm.trans hr₁
    refine ⟨?_, hc.short, hc.steps, by rw [hc.range_eq, hbounds]⟩
    exact (becomes_iff hR hs hspans fun h => hleaves (hform.symm.trans h.symm)).mpr
      ⟨e, ho, hu, hform⟩

/-- Where a search ends without a chain, the value does not become what was looked for. -/
theorem not_becomes_of_settled (hR : s.Tells R) (hs : source.Over R) (hspans : range.Spans source)
    (hc : casts.Charted s R q source range rs taken) (h : Spread s q source range rs taken)
    (done : casts.Done s q rs taken) (hall : ∀ x ∈ rs, x.settled = true) :
    ¬ Becomes s source range q.destination := by
  have hbare : source.bare.Over R := Ty.over_withFlags.mpr hs
  have hflag : source.bare.isFlagged = false := Ty.isFlagged_bare source
  have away : ∀ {d r c}, Beside s source.bare range d r c → d ≠ s.form q.destination := by
    intro d r c hd
    obtain ⟨x, hx, rfl⟩ := h.reaches done hall hd
    exact hc.away x hx (hall x hx)
  rw [becomes_iff hR hs hspans (away (.self .identity))]
  rintro ⟨e, ho, hu, hd⟩
  obtain ⟨range', hr, -⟩ := rangeAfter_implicit hR hbare hflag hspans.bare ho hu
  have beside := Beside.converted ho hu hr (.extend .identity fun _ m v hv =>
    exact_implicit hR hbare hflag hspans.bare ho hu m hv)
  exact away beside hd.symm

/-- A search finds one chain to what the value becomes, of two steps at most, which change neither
the value nor its bounds; and it finds nothing else. -/
theorem search_cases (hR : s.Tells R) (hs : source.Over R) {destination : Ty}
    (hd : destination.Over R) (hne : s.form source ≠ s.form destination)
    (hspans : range.Spans source) {l : Weight} (hl : 3 ≤ l.length.toNat) :
    (Becomes s source range destination ∧ ∃ c,
      (casts.search s source range ⟨destination, false, l⟩).outcome = .ok (.chain c false) ∧
      c.steps.length ≤ 2 ∧ Step.Exact range c.steps ∧
      (Step.rangeAfter range c.steps).bounds? = range.bounds?) ∨
    (¬ Becomes s source range destination ∧
      (casts.search s source range ⟨destination, false, l⟩).outcome = .ok .unreachable) := by
  let q : CastQuery := ⟨destination, false, l⟩
  have hl : 3 ≤ q.limit.length.toNat := hl
  obtain ⟨rs, taken, found, hrun, hex, done, hends⟩ :=
    CastTable.search_explored hR (casts_grouped s R) hs hd (casts_ranged hR hs hspans rfl hl)
  have hc := hex.charted hR (casts_grouped s R) hs
  have spread := spread_of_explored hR hs hspans rfl hl hex
  cases hends with
  | @found place r hn hrd =>
    have hr := List.mem_of_getElem? (Reached.nearest_spec hn).1
    obtain ⟨becomes, chain⟩ := (spread.near r hr).chain hR hs hspans hrd hne
    rw [spread.untied r hr] at hrun
    exact .inl ⟨becomes, r.chain, hrun, chain⟩
  | exhausted hall =>
    exact .inr ⟨not_becomes_of_settled hR hs hspans hc spread done hall, hrun⟩

/-- Without being asked for, a value is converted to what it `Becomes` and to nothing else.  There
is one way to do so, which takes two steps at most, and changes neither the value nor the bounds
that are known of it. -/
theorem search_implicit (hR : s.Tells R) (hs : source.Over R) {destination : Ty}
    (hd : destination.Over R) (hne : s.form source ≠ s.form destination)
    (hspans : range.Spans source) {l : Weight} (hl : 3 ≤ l.length.toNat) :
    ∃ found, (casts.search s source range ⟨destination, false, l⟩).outcome = .ok found ∧
      ((∃ c tied, found = .chain c tied) ↔ Becomes s source range destination) ∧
      ∀ c tied, found = .chain c tied →
        tied = false ∧ c.steps.length ≤ 2 ∧ Step.Exact range c.steps ∧
          (Step.rangeAfter range c.steps).bounds? = range.bounds? := by
  rcases search_cases hR hs hd hne hspans hl with ⟨becomes, c, hrun, chain⟩ | ⟨never, hrun⟩
  · refine ⟨_, hrun, ⟨fun _ => becomes, fun _ => ⟨_, _, rfl⟩⟩, ?_⟩
    rintro c tied ⟨⟩
    exact ⟨rfl, chain⟩
  · exact ⟨_, hrun, ⟨fun ⟨_, _, h⟩ => (nomatch h), fun h => absurd h never⟩, nofun⟩

/-- A stored `S32` between 3 and 200 becomes a `U8`, and no `S8`. -/
theorem search_implicit_narrow :
    (∃ c, (casts.search .empty (s32.withFlags ⟨true, true⟩) (.signed 3 200)
        ⟨u8, false, ⟨8, 64⟩⟩).outcome = .ok (.chain c false) ∧ c.steps.length ≤ 2 ∧
      Step.Exact (.signed 3 200) c.steps ∧
      (Step.rangeAfter (.signed 3 200) c.steps).bounds? = some (3, 200)) ∧
    (casts.search .empty (s32.withFlags ⟨true, true⟩) (.signed 3 200)
      ⟨s8, false, ⟨8, 64⟩⟩).outcome = .ok .unreachable := by
  have tells : Structs.empty.Tells fun _ => False := ⟨nofun, nofun⟩
  have hsource : (s32.withFlags ⟨true, true⟩).Over fun _ => False := trivial
  have spans : (Range.signed 3 200).Spans (s32.withFlags ⟨true, true⟩) := by
    intro low high h
    cases h
    exact ⟨3, 200, rfl, by decide, by decide, by decide⟩
  have run := fun (j : Ty) (hj : j.Over fun _ => False) hne =>
    search_implicit tells hsource hj hne spans (l := ⟨8, 64⟩) (by decide)
  constructor
  · obtain ⟨found, hrun, hiff, hchain⟩ := run u8 trivial nofun
    have becomes : Becomes .empty (s32.withFlags ⟨true, true⟩) (.signed 3 200) u8 := by
      refine .integer (i := s32) (j := u8) (by decide) (by decide) rfl rfl ?_
      have bounds : u8.bounds? = some (0, 255) := rfl
      rintro v ⟨hlow, hhigh⟩
      exact (Ty.admits_iff bounds).mpr ⟨by omega, by omega⟩
    obtain ⟨c, tied, rfl⟩ := hiff.mpr becomes
    obtain ⟨rfl, hsteps, hexact, hbounds⟩ := hchain c tied rfl
    exact ⟨c, hrun, hsteps, hexact, hbounds⟩
  · obtain ⟨found, hrun, hiff, -⟩ := run s8 trivial nofun
    cases found with
    | unreachable => exact hrun
    | chain c tied =>
      cases hiff.mp ⟨c, tied, rfl⟩ with
      | value _ h => cases h
      | integer _ _ _ _ fits =>
        have bounds : s8.bounds? = some (-128, 127) := rfl
        have := ((Ty.admits_iff bounds).mp (fits 200 ⟨by decide, by decide⟩)).2
        omega
      | pointer h _ _ => cases h

/-- Two structs of one name cannot be compared before they have their members, though neither
becomes the other. -/
theorem search_implicit_twins :
    (casts.search .twins (.struct ⟨true, false⟩ ⟨0, "A"⟩) (.array [])
        ⟨.struct .none ⟨1, "A"⟩, false, ⟨8, 64⟩⟩).outcome = .error (.structPending "A") ∧
    ¬ Becomes .twins (.struct ⟨true, false⟩ ⟨0, "A"⟩) (.array []) (.struct .none ⟨1, "A"⟩) := by
  refine ⟨eq_error_of_failure (by decide +kernel), ?_⟩
  intro h
  cases h with
  | value _ h =>
    injection h with _ _ hm
    cases hm
  | integer hi _ h _ _ =>
    obtain ⟨c, rfl, -⟩ := scalar_of_mem (mem_all_of_integers hi)
    cases h
  | pointer h _ _ => cases h

end Builtin

end Gauge
