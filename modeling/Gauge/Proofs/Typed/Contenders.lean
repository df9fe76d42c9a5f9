import Gauge.Proofs.Cast.Explore
import Mathlib.Order.Nat

/-!
# Proofs — contenders among overloads

What a choice among overloads comes to, without the steps that find it.  The contenders for some
operands are the candidates that all operands convert to, each with the sum of what its conversions
weigh; where some of them give the expected type, only these (`Candidate.contenders`).  A choice is
made exactly if all it asks is answered, and is the lightest contender (`Candidate.choose_eq_ok`):
one that is lighter than all others (`Candidate.Least`), wherever it stands, and none if two share
the least weight (`Candidate.Tied`).
-/

namespace Gauge

/-- The weight of a conversion, where there is one. -/
def Typed.weight? (scope : Scope) (e : Typed) (t : Ty) : Option Weight :=
  match (e.conversionWeight scope t).outcome with
  | .ok weight => weight
  | .error _ => none

/-- The types compare equal. -/
def Scope.same (scope : Scope) (a b : Ty) : Bool :=
  match (scope.compare a b).outcome with
  | .ok same => same
  | .error _ => false

/-- The weights of the conversions of some operands, where there is one for each. -/
def Typed.weights? (scope : Scope) (es : List Typed) (ts : List Ty) : Option (List Weight) :=
  (es.zip ts).mapM fun (p : Typed × Ty) => p.1.weight? scope p.2

theorem Typed.weight?_eq {scope : Scope} {e : Typed} {t : Ty} {weight : Option Weight}
    (h : (e.conversionWeight scope t).outcome = .ok weight) : e.weight? scope t = weight := by
  rw [weight?, h]

theorem Scope.same_eq {scope : Scope} {a b : Ty} {same : Bool}
    (h : (scope.compare a b).outcome = .ok same) : scope.same a b = same := by
  rw [Scope.same, h]

section Weights

variable {scope : Scope}

/-- An operand is weighed if its type is compared and a conversion is searched for. -/
theorem Typed.conversionWeight_defined {e : Typed} {t : Ty} {same : Bool}
    {found : Found} (hsame : (scope.compare e.type t).outcome = .ok same)
    (hfound : (scope.search e.type e.range ⟨t, false, scope.castLimit⟩).outcome = .ok found) :
    ∃ weight, (e.conversionWeight scope t).outcome = .ok weight := by
  rw [conversionWeight, Traced.outcome_bind, hsame, ok_bind]
  cases same with
  | true => exact ⟨_, rfl⟩
  | false =>
    rw [if_neg Bool.false_ne_true, Traced.outcome_bind, hfound]
    cases found <;> exact ⟨_, rfl⟩

/-- Operands are weighed if each of them is. -/
theorem Typed.conversionWeights_defined {es : List Typed} {ts : List Ty} {total : Weight}
    (h : ∀ p ∈ es.zip ts, ∃ weight, (p.1.conversionWeight scope p.2).outcome = .ok weight) :
    ∃ weight, (conversionWeights scope total es ts).outcome = .ok weight := by
  induction es generalizing total ts with
  | nil => exact ⟨_, rfl⟩
  | cons e es ih =>
    cases ts with
    | nil => exact ⟨_, rfl⟩
    | cons t ts =>
      obtain ⟨⟨first, hfirst⟩, rest⟩ := List.forall_mem_cons.mp h
      rw [conversionWeights, Traced.outcome_bind, hfirst, ok_bind]
      cases first with
      | none => exact ⟨none, rfl⟩
      | some w => exact ih rest

/-- The weights of the conversions are added up. -/
theorem Typed.conversionWeights_eq {es : List Typed} {ts : List Ty} {total : Weight}
    {weight : Option Weight}
    (h : (conversionWeights scope total es ts).outcome = .ok weight) :
    weight = (weights? scope es ts).map (List.foldl (· + ·) total) := by
  induction es generalizing total ts with
  | nil => exact (Except.ok.inj h).symm
  | cons e es ih =>
    cases ts with
    | nil => exact (Except.ok.inj h).symm
    | cons t ts =>
      rw [conversionWeights, Traced.bind_ok] at h
      obtain ⟨first, hfirst, h⟩ := h
      rw [weights?, List.zip_cons_cons, List.mapM_cons, weight?_eq hfirst]
      cases first with
      | none => exact (Except.ok.inj h).symm
      | some w =>
        rw [ih h, weights?]
        cases (es.zip ts).mapM fun (p : Typed × Ty) => p.1.weight? scope p.2 <;> rfl

end Weights

namespace Candidate

variable {α : Type} {scope : Scope} {operands : List Typed} {expected : Option Ty}
  {ss : List (Scored α)} {cs cs' : List (Candidate α)}

/-! ### Contenders -/

/-- What the conversions of all operands weigh together, if there is one for each. -/
def weight? (scope : Scope) (operands : List Typed) (c : Candidate α) : Option Weight :=
  (Typed.weights? scope operands c.parameters).map (List.foldl (· + ·) .zero)

/-- The candidates that have a weight, with it. -/
def weighed (weight : Candidate α → Option Weight) (cs : List (Candidate α)) : List (Scored α) :=
  cs.filterMap fun c => (weight c).map (Scored.mk c)

/-- The candidates that all operands convert to. -/
def viable (scope : Scope) (operands : List Typed) (cs : List (Candidate α)) : List (Scored α) :=
  weighed (weight? scope operands) cs

/-- Where a value of a type is expected and some candidates give it, only these. -/
def favour (scope : Scope) (expected : Option Ty) (cs : List (Scored α)) : List (Scored α) :=
  match expected with
  | none => cs
  | some t =>
    if t.isVoid = false ∧ ∃ c ∈ cs, scope.same c.candidate.result t.bare = true
    then cs.filter fun c => scope.same c.candidate.result t.bare
    else cs

/-- The candidates that a choice is made among. -/
def contenders (scope : Scope) (operands : List Typed) (expected : Option Ty)
    (cs : List (Candidate α)) : List (Scored α) :=
  favour scope expected (viable scope operands cs)

/-- All that a choice asks is answered: what each candidate weighs, and whether those that the
operands convert to give the expected type. -/
structure Answered (scope : Scope) (operands : List Typed) (expected : Option Ty)
    (cs : List (Candidate α)) : Prop where
  weights : ∀ c ∈ cs, ∃ weight,
    (Typed.conversionWeights scope .zero operands c.parameters).outcome = .ok weight
  results : ∀ t, expected = some t → t.isVoid = false → ∀ c ∈ viable scope operands cs, ∃ same,
    (scope.compare c.candidate.result t.bare).outcome = .ok same

/-- A candidate's weight, as it is found. -/
theorem weight?_eq {c : Candidate α} {weight : Option Weight}
    (h : (Typed.conversionWeights scope .zero operands c.parameters).outcome = .ok weight) :
    c.weight? scope operands = weight :=
  (Typed.conversionWeights_eq h).symm

/-- A pass over a list that asks something of every element has asked all of them if it succeeds. -/
theorem asked_of_outcome {ε γ δ ω : Type} {pass : List γ → Traced ε δ} {ask : γ → Traced ε ω}
    {add : γ → ω → δ → Traced ε δ}
    (step : ∀ c cs, pass (c :: cs) = ask c >>= fun w => pass cs >>= fun rest => add c w rest)
    {cs : List γ} {d : δ} (h : (pass cs).outcome = .ok d) : ∀ c ∈ cs, ∃ w,
      (ask c).outcome = .ok w := by
  induction cs generalizing d with
  | nil => exact fun c hc => absurd hc List.not_mem_nil
  | cons c cs ih =>
    rw [step] at h
    obtain ⟨w, hw, h⟩ := Traced.bind_ok.mp h
    obtain ⟨rest, hrest, -⟩ := Traced.bind_ok.mp h
    exact List.forall_mem_cons.mpr ⟨⟨w, hw⟩, ih hrest⟩

theorem scored_of_weights {weight : Candidate α → Option Weight}
    (h : ∀ c ∈ cs,
      (Typed.conversionWeights scope .zero operands c.parameters).outcome = .ok (weight c)) :
    (scored scope operands cs).outcome = .ok (weighed weight cs) := by
  induction cs with
  | nil => rfl
  | cons c cs ih =>
    have rest := ih fun c' hc => h c' (.tail _ hc)
    rw [scored, Traced.outcome_bind, h c (.head _), ok_bind, Traced.outcome_bind, rest,
      ok_bind]
    cases hw : weight c <;> simp [weighed, hw]

theorem giving_of_fits {t : Ty} (fits : Candidate α → Bool) {ss : List (Scored α)}
    (h : ∀ x ∈ ss, (scope.compare x.candidate.result t).outcome = .ok (fits x.candidate)) :
    (giving scope t ss).outcome = .ok (ss.filter fun x => fits x.candidate) := by
  induction ss with
  | nil => rfl
  | cons x ss ih =>
    have rest := ih fun y hy => h y (.tail _ hy)
    rw [giving, Traced.outcome_bind, h x (.head _), ok_bind, Traced.outcome_bind, rest,
      ok_bind]
    cases hf : fits x.candidate <;> simp [hf]

/-- What is scored are the viable candidates. -/
theorem scored_eq_ok :
    (scored scope operands cs).outcome = .ok ss ↔
      (∀ c ∈ cs, ∃ weight,
        (Typed.conversionWeights scope .zero operands c.parameters).outcome = .ok weight) ∧
      ss = viable scope operands cs := by
  have found : (∀ c ∈ cs, ∃ weight,
      (Typed.conversionWeights scope .zero operands c.parameters).outcome = .ok weight) →
      (scored scope operands cs).outcome = .ok (viable scope operands cs) := by
    refine fun weights => scored_of_weights fun c hc => ?_
    obtain ⟨weight, hweight⟩ := weights c hc
    rw [hweight, weight?_eq hweight]
  constructor
  · intro h
    have weights := asked_of_outcome (fun _ _ => rfl) h
    exact ⟨weights, Except.ok.inj (h.symm.trans (found weights))⟩
  · rintro ⟨weights, rfl⟩
    exact found weights

/-- What is found to give a type are those whose result compares equal to it. -/
theorem giving_eq_ok {t : Ty} {ds : List (Scored α)} :
    (giving scope t ss).outcome = .ok ds ↔
      (∀ c ∈ ss, ∃ same, (scope.compare c.candidate.result t).outcome = .ok same) ∧
      ds = ss.filter fun c => scope.same c.candidate.result t := by
  have found : (∀ c ∈ ss, ∃ same, (scope.compare c.candidate.result t).outcome = .ok same) →
      (giving scope t ss).outcome = .ok (ss.filter fun c => scope.same c.candidate.result t) := by
    refine fun results => giving_of_fits (fun c => scope.same c.result t) fun c hc => ?_
    obtain ⟨same, hsame⟩ := results c hc
    rw [hsame, Scope.same_eq hsame]
  constructor
  · intro h
    have results := asked_of_outcome (fun _ _ => rfl) h
    exact ⟨results, Except.ok.inj (h.symm.trans (found results))⟩
  · rintro ⟨results, rfl⟩
    exact found results

/-- What is preferred is what gives the expected type, if anything does. -/
theorem preferred_eq_ok {ds : List (Scored α)} :
    (preferred scope expected ss).outcome = .ok ds ↔
      (∀ t, expected = some t → t.isVoid = false → ∀ c ∈ ss, ∃ same,
        (scope.compare c.candidate.result t.bare).outcome = .ok same) ∧
      ds = favour scope expected ss := by
  cases expected with
  | none =>
    rw [preferred, Traced.pure_ok, favour]
    exact ⟨fun h => ⟨fun t ht => absurd ht (by simp), h.symm⟩, fun h => h.2.symm⟩
  | some t =>
    cases hv : t.isVoid with
    | true =>
      simp only [preferred, favour, hv, if_true, Traced.pure_ok, Bool.true_eq_false,
        false_and, if_false]
      refine ⟨fun h => ⟨fun t' ht hv' => ?_, h.symm⟩, fun h => h.2.symm⟩
      cases ht
      cases hv.symm.trans hv'
    | false =>
      have empty : (ss.filter fun c => scope.same c.candidate.result t.bare).isEmpty = true ↔
          ¬ ∃ c ∈ ss, scope.same c.candidate.result t.bare = true := by
        simp
      have kept : (if (ss.filter fun c => scope.same c.candidate.result t.bare).isEmpty then ss
          else ss.filter fun c => scope.same c.candidate.result t.bare) =
          favour scope (some t) ss := by
        rw [favour, ite_congr (propext empty) (fun _ => rfl) fun _ => rfl]
        simp only [hv, true_and, ite_not]
      simp only [preferred, hv, Bool.false_eq_true, if_false, Traced.bind_ok,
        Traced.pure_ok, giving_eq_ok, Option.some.injEq, forall_eq', true_implies]
      constructor
      · rintro ⟨fitting, ⟨results, rfl⟩, rfl⟩
        exact ⟨results, kept⟩
      · rintro ⟨results, rfl⟩
        exact ⟨_, ⟨results, rfl⟩, kept⟩

/-- **A choice takes the lightest contender**, and is made exactly if all it asks is answered. -/
theorem choose_eq_ok {x : Choice α} :
    (choose scope cs operands expected).outcome = .ok x ↔
      Answered scope operands expected cs ∧
      x = lightest (contenders scope operands expected cs) := by
  simp only [choose, Traced.bind_ok, Traced.pure_ok, scored_eq_ok, preferred_eq_ok]
  constructor
  · rintro ⟨_, ⟨weights, rfl⟩, _, ⟨results, rfl⟩, rfl⟩
    exact ⟨⟨weights, results⟩, rfl⟩
  · rintro ⟨answered, rfl⟩
    exact ⟨_, ⟨answered.weights, rfl⟩, _, ⟨answered.results, rfl⟩, rfl⟩

theorem candidate_mem_of_weighed {weight : Candidate α → Option Weight} {x : Scored α}
    (h : x ∈ weighed weight cs) : x.candidate ∈ cs := by
  obtain ⟨c, hc, hx⟩ := List.mem_filterMap.mp h
  obtain ⟨w, -, rfl⟩ := Option.map_eq_some_iff.mp hx
  exact hc

theorem favour_subset : favour scope expected ss ⊆ ss := by
  unfold favour
  split
  · exact fun c hc => hc
  · split
    · exact List.filter_subset_self _
    · exact fun c hc => hc

theorem candidate_mem_of_contender {c : Scored α} (h : c ∈ contenders scope operands expected cs) :
    c.candidate ∈ cs :=
  candidate_mem_of_weighed (favour_subset h)

/-! ### The lightest of some candidates -/

/-- `v` belongs to the one candidate that is lighter than all others. -/
def Least (cs : List (Scored α)) (v : α) : Prop :=
  ∃ c rest, cs.Perm (c :: rest) ∧ c.candidate.value = v ∧ ∀ d ∈ rest, c.weight.lt d.weight = true

/-- Two candidates have the same weight, and none has less. -/
def Tied (cs : List (Scored α)) : Prop :=
  ∃ c d rest, cs.Perm (c :: d :: rest) ∧ c.weight = d.weight ∧
    ∀ e ∈ rest, c.weight.le e.weight = true

section Least

variable {cs ds : List (Scored α)} {v : α}

theorem Least.of_perm (h : cs.Perm ds) (hl : Least ds v) : Least cs v := by
  obtain ⟨c, rest, hp, hv, hlt⟩ := hl
  exact ⟨c, rest, h.trans hp, hv, hlt⟩

theorem Tied.of_perm (h : cs.Perm ds) (ht : Tied ds) : Tied cs := by
  obtain ⟨c, d, rest, hp, heq, hle⟩ := ht
  exact ⟨c, d, rest, h.trans hp, heq, hle⟩

/-- What is chosen is lighter than all others; if there was a tie, also than the best so far. -/
theorem lightestFrom_eq_unique {a : α} : ∀ {cs : List (Scored α)} {best : Scored α} {tied : Bool},
    lightestFrom best tied cs = .unique a → ∃ c rest, (best :: cs).Perm (c :: rest) ∧
      c.candidate.value = a ∧ (∀ d ∈ rest, c.weight.rank < d.weight.rank) ∧
      (tied = true → c.weight.rank < best.weight.rank)
  | [], best, tied, h => by
    unfold lightestFrom at h
    cases tied with
    | true => cases h
    | false =>
      cases h
      exact ⟨best, [], .refl _, rfl, by simp, by simp⟩
  | c :: cs, best, tied, h => by
    have below : ∀ {x b : Scored α} {rest : List (Scored α)}, (b :: cs).Perm (x :: rest) →
        (∀ d ∈ rest, x.weight.rank < d.weight.rank) → x.weight.rank ≤ b.weight.rank := by
      intro x b rest hp hx
      rcases List.mem_cons.mp (hp.subset (.head _)) with rfl | hb
      · exact le_rfl
      · exact Nat.le_of_lt (hx b hb)
    unfold lightestFrom at h
    by_cases hlt : best.weight.lt c.weight = true
    · rw [if_pos hlt] at h
      rw [Weight.lt_iff_rank] at hlt
      obtain ⟨x, rest, hp, ha, hx, ht⟩ := lightestFrom_eq_unique h
      have := below hp hx
      refine ⟨x, c :: rest, ?_, ha, List.forall_mem_cons.mpr ⟨by omega, hx⟩, ht⟩
      exact (List.Perm.swap c best cs).trans ((hp.cons c).trans (.swap x c rest))
    · rw [if_neg hlt] at h
      rw [Weight.lt_iff_rank] at hlt
      by_cases heq : c.weight = best.weight
      · rw [if_pos heq] at h
        obtain ⟨x, rest, hp, ha, hx, ht⟩ := lightestFrom_eq_unique h
        have hbest := ht rfl
        refine ⟨x, c :: rest, ?_, ha, List.forall_mem_cons.mpr ⟨by rwa [heq], hx⟩, fun _ => hbest⟩
        exact (List.Perm.swap c best cs).trans ((hp.cons c).trans (.swap x c rest))
      · rw [if_neg heq] at h
        rw [← Weight.rank_inj] at heq
        obtain ⟨x, rest, hp, ha, hx, -⟩ := lightestFrom_eq_unique h
        have := below hp hx
        refine ⟨x, best :: rest, ?_, ha, List.forall_mem_cons.mpr ⟨by omega, hx⟩, fun _ => by omega⟩
        exact (hp.cons best).trans (.swap x best rest)

theorem lightestFrom_of_lt {c : Scored α} : ∀ {cs : List (Scored α)},
    (∀ d ∈ cs, c.weight.rank < d.weight.rank) → lightestFrom c false cs = .unique c.candidate.value
  | [], _ => rfl
  | d :: cs, h => by
    obtain ⟨hd, hcs⟩ := List.forall_mem_cons.mp h
    rw [lightestFrom, if_pos (Weight.lt_iff_rank.mpr hd)]
    exact lightestFrom_of_lt hcs

/-- One that is lighter than all others is chosen wherever it stands. -/
theorem lightestFrom_append {c best : Scored α} {tied : Bool}
    (hb : c.weight.rank < best.weight.rank) (hc : ∀ d ∈ cs, c.weight.rank < d.weight.rank)
    (hd : ∀ d ∈ ds, c.weight.rank < d.weight.rank) :
    lightestFrom best tied (cs ++ c :: ds) = .unique c.candidate.value := by
  induction cs generalizing best tied with
  | nil =>
    have hlt : ¬ best.weight.lt c.weight = true := by
      rw [Weight.lt_iff_rank]
      omega
    have hne : c.weight ≠ best.weight := by
      rw [ne_eq, ← Weight.rank_inj]
      omega
    rw [List.nil_append, lightestFrom, if_neg hlt, if_neg hne]
    exact lightestFrom_of_lt hd
  | cons e cs ih =>
    obtain ⟨he, hc⟩ := List.forall_mem_cons.mp hc
    rw [List.cons_append, lightestFrom]
    split
    · exact ih hb hc
    · split
      · exact ih hb hc
      · exact ih he hc

/-- A candidate is chosen exactly if it is lighter than all others. -/
theorem lightest_eq_least_iff : lightest cs = .unique v ↔ Least cs v := by
  simp only [Least, Weight.lt_iff_rank]
  constructor
  · intro h
    cases cs with
    | nil => cases h
    | cons best cs =>
      obtain ⟨c, rest, hp, ha, hc, -⟩ := lightestFrom_eq_unique h
      exact ⟨c, rest, hp, ha, hc⟩
  · rintro ⟨c, rest, hp, rfl, hc⟩
    obtain ⟨as, bs, rfl⟩ := List.append_of_mem (hp.symm.subset (.head _))
    have others : ∀ d ∈ as ++ bs, c.weight.rank < d.weight.rank := fun d hd =>
      hc d ((List.perm_middle.symm.trans hp).cons_inv.subset hd)
    obtain ⟨has, hbs⟩ := List.forall_mem_append.mp others
    cases as with
    | nil => exact lightestFrom_of_lt hbs
    | cons best as =>
      obtain ⟨hbest, has⟩ := List.forall_mem_cons.mp has
      exact lightestFrom_append hbest has hbs

end Least

/-! ### Orders of candidates -/

theorem viable_perm (h : cs.Perm cs') :
    (viable scope operands cs).Perm (viable scope operands cs') :=
  h.filterMap _

theorem favour_perm {ss ss' : List (Scored α)} (h : ss.Perm ss') :
    (favour scope expected ss).Perm (favour scope expected ss') := by
  cases expected with
  | none => exact h
  | some t =>
    have given : (∃ c ∈ ss, scope.same c.candidate.result t.bare = true) ↔
        ∃ c ∈ ss', scope.same c.candidate.result t.bare = true := by
      simp only [h.mem_iff]
    simp only [favour, given]
    split
    · exact h.filter _
    · exact h

theorem Answered.of_perm (h : cs'.Perm cs) (ha : Answered scope operands expected cs) :
    Answered scope operands expected cs' :=
  ⟨fun c hc => ha.weights c (h.subset hc),
    fun t ht hv c hc => ha.results t ht hv c ((viable_perm h).subset hc)⟩

/-- An overload that is chosen is one of the candidates. -/
theorem choose_unique {v : α} (h : (choose scope cs operands expected).outcome = .ok (.unique v)) :
    ∃ c ∈ cs, c.value = v := by
  obtain ⟨-, hv⟩ := choose_eq_ok.mp h
  obtain ⟨c, rest, hp, rfl, -⟩ := lightest_eq_least_iff.mp hv.symm
  exact ⟨c.candidate, candidate_mem_of_contender (hp.symm.subset (.head _)), rfl⟩

end Candidate

end Gauge
