import Gauge.Proofs.Compile

/-!
# Proofs — conversions forge nothing and leave no choice

The builtin conversions make a pointer from nothing but a pointer, and never one that may write
where the other could not; and there is one best way to convert a value, if there is any
(`search_yields_unambiguous`).

Both rest on ranges that are not empty and lie in their types, as those of programs do, so no
program is refused for an ambiguous conversion.  With others a conversion may be ambiguous or have
no range at all (`search_outside_type`).
-/

namespace Gauge

namespace Builtin

/-- **Conversions forge neither pointers nor the right to write, and leave no choice.**  A pointer
is found exactly if the source yields it, and storage only if it is the source.  There is one best
way to what is found, if the conversion is asked for or the range lies in its type; so no program is
refused for an ambiguous conversion. -/
theorem search_yields_unambiguous :
    (∀ (R : StructRef → Prop) (s : Structs) (source destination : Ty) (range : Range)
        (explicit : Bool) (limit : Weight), s.Tells R → source.Over R → destination.Over R →
        range.Filled →
        3 ≤ limit.length.toNat →
      ∃ found, (casts.search s source range ⟨destination, explicit, limit⟩).outcome = .ok found ∧
        (destination.isPointer = true →
          ((∃ c tied, found = .chain c tied) ↔ Yields s source destination)) ∧
        (destination.isFlagged = true → ∀ c tied, found = .chain c tied →
          s.form source = s.form destination) ∧
        (explicit = true ∨ range.Spans source → ∀ c tied, found = .chain c tied → tied = false)) ∧
    ∀ limits file source a b position,
      compile limits file source ≠ .error (.error ⟨.ambiguousCast a b, position⟩) := by
  constructor
  · intro R s source destination range explicit limit hR hs hd hr hl
    obtain ⟨found, hrun, hpointer, hflagged⟩ :=
      search_yields_iff (q := ⟨destination, explicit, limit⟩) hR hs hd hr hl
    refine ⟨found, hrun, hpointer, hflagged, ?_⟩
    rintro hmode c tied rfl
    exact search_untied hR hs hd hr hmode hrun
  · intro limits file source a b position h
    have safe := compile_safe limits file source
    rw [h] at safe
    cases safe.1

/-- A stored pointer that may write becomes one that only reads; the other way round there is
nothing, even if it is asked for. -/
theorem search_yields_unambiguous_pointers :
    (∃ c, (casts.search .empty (.pointer ⟨true, true⟩ none u8.asMutable)
        (.pointer (.unsigned 0 255) .any) ⟨.pointerTo u8, false, ⟨5, 64⟩⟩).outcome =
          .ok (.chain c false)) ∧
    (casts.search .empty (.pointerTo u8) (.pointer (.unsigned 0 255) .any)
      ⟨.pointerTo u8.asMutable, true, ⟨5, 64⟩⟩).outcome = .ok .unreachable := by
  have tells : Structs.empty.Tells fun _ => False := ⟨nofun, nofun⟩
  have filled : (Range.pointer (.unsigned 0 255) .any).Filled := Bools.nonempty_any
  constructor
  · obtain ⟨found, hrun, hpointer, -, huntied⟩ := search_yields_unambiguous.1 _ _
      (.pointer ⟨true, true⟩ none u8.asMutable) (.pointerTo u8) _ false ⟨5, 64⟩ tells
        trivial trivial
      filled (by decide)
    obtain ⟨c, tied, rfl⟩ := (hpointer rfl).mpr (.loosened rfl rfl rfl rfl)
    obtain rfl := huntied (.inr nofun) c tied rfl
    exact ⟨c, hrun⟩
  · obtain ⟨found, hrun, hpointer, -, -⟩ := search_yields_unambiguous.1 _ _
      (.pointerTo u8) (.pointerTo u8.asMutable) _ true ⟨5, 64⟩ tells trivial trivial filled
        (by decide)
    cases found with
    | unreachable => exact hrun
    | chain c tied =>
      cases (hpointer rfl).mp ⟨c, tied, rfl⟩ with
      | same h | loaded _ h => cases h
      | loosened _ h hm _ =>
        cases h
        cases hm

/-- A range that does not lie in its type leaves a choice, and with an empty range, or with structs
that cannot be told apart, a search for a pointer that is not there breaks off. -/
theorem search_outside_type :
    (∃ c, (casts.search .empty u8 (.unsigned 65541 65541) ⟨s8, false, ⟨8, 64⟩⟩).outcome =
      .ok (.chain c true)) ∧
    (casts.search .empty bool (.bools ⟨false, false⟩) ⟨.pointerTo u8, true, ⟨8, 64⟩⟩).outcome =
      .error (.rangeOutsideDomain 1 0 "U8") ∧
    (casts.search .twins (.pointerTo (.struct .none ⟨0, "A"⟩)) (.pointer (.array []) .any)
      ⟨.pointerTo (.struct .none ⟨1, "A"⟩), false, ⟨8, 64⟩⟩).outcome =
        .error (.structPending "A") := by
  refine ⟨?_, eq_error_of_failure (by decide +kernel), eq_error_of_failure (by decide +kernel)⟩
  have run : (casts.search .empty u8 (.unsigned 65541 65541)
    ⟨s8, false, ⟨8, 64⟩⟩).outcome.toOption.map
      (fun found => found.casesOn (motive := fun _ => Bool) (fun _ tied => tied) false) =
        some true := by
    decide +kernel
  obtain ⟨found, hrun, htied⟩ := eq_ok_of_map run
  cases found with
  | unreachable => cases htied
  | chain c tied =>
    obtain rfl : tied = true := htied
    exact ⟨c, hrun⟩

end Builtin

end Gauge
