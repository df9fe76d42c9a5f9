import Gauge.Module
import Mathlib.Data.List.Perm.Basic

/-!
# Proofs — steps that succeed

A step of checking that succeeds is taken apart into the steps it is made of.  `x.Gives p a q` says
that `x`, started with the progress `p`, ends with `a` and the progress `q`; the lemmas below turn
it into what the parts of `x` give.  The traces of fingerprints play no part in it.
-/

namespace Gauge

section Except

variable {ε α β : Type} {x : Except ε α}

theorem bind_eq_ok {f : α → Except ε β} {b : β} :
    (x >>= f) = .ok b ↔ ∃ a, x = .ok a ∧ f a = .ok b := by
  cases x with
  | error e =>
    constructor
    · intro h; cases h
    · rintro ⟨_, h, -⟩; cases h
  | ok a =>
    constructor
    · intro h; exact ⟨a, rfl, h⟩
    · rintro ⟨_, h, hb⟩; cases h; exact hb

theorem bind_eq_error {f : α → Except ε β} {e : ε} :
    (x >>= f) = .error e ↔ x = .error e ∨ ∃ a, x = .ok a ∧ f a = .error e := by
  cases x with
  | error e' =>
    constructor
    · intro h; cases h; exact .inl rfl
    · rintro (h | ⟨_, h, -⟩) <;> cases h; rfl
  | ok a =>
    constructor
    · intro h; exact .inr ⟨a, rfl, h⟩
    · rintro (h | ⟨_, h, he⟩) <;> cases h; exact he

@[simp] theorem ok_bind (a : α) (f : α → Except ε β) : ((.ok a : Except ε α) >>= f) = f a := rfl

theorem map_eq_ok {f : α → β} {b : β} : x.map f = .ok b ↔ ∃ a, x = .ok a ∧ f a = b := by
  cases x <;> simp [Except.map]

theorem pure_eq_ok {a b : α} : (pure a : Except ε α) = .ok b ↔ a = b :=
  ⟨fun h => by cases h; rfl, fun h => h ▸ rfl⟩

/-- Renaming the failures of a step leaves its successes alone. -/
theorem ok_of_mapError {δ : Type} {f : ε → δ} {a : α} : x.mapError f = .ok a ↔ x = .ok a := by
  cases x with
  | error e => constructor <;> intro h <;> cases h
  | ok b => exact ⟨fun h => by cases h; rfl, fun h => by cases h; rfl⟩

/-- A computation whose result can be computed succeeds. -/
theorem eq_ok_of_map {f : α → β} {b : β} (h : x.toOption.map f = some b) :
    ∃ a, x = .ok a ∧ f a = b := by
  cases x with
  | error e => cases h
  | ok a => exact ⟨a, rfl, Option.some.inj h⟩

/-- The outcome of a computation that fails, read off its failure. -/
theorem eq_error_of_failure {e : ε}
    (h : (match x with | .error e => some e | .ok _ => none) = some e) : x = .error e := by
  cases x with
  | error _ => rw [Option.some.inj h]
  | ok _ => cases h

end Except

section Lists

variable {ε α β : Type} {f : β → α → Except ε β}

/-- What every step of a fold keeps, the fold keeps; it may speak of the elements that are left. -/
theorem foldlM_eq_ok_of_left {I : List α → β → Prop}
    (step : ∀ b a l b', I (a :: l) b → f b a = .ok b' → I l b') :
    ∀ {l : List α} {b b' : β}, I l b → l.foldlM f b = .ok b' → I [] b'
  | [], b, b', hb, h => by
    cases h
    exact hb
  | a :: l, b, b', hb, h => by
    rw [List.foldlM_cons] at h
    obtain ⟨b₁, h₁, h⟩ := bind_eq_ok.mp h
    exact foldlM_eq_ok_of_left step (step b a l b₁ hb h₁) h

theorem foldlM_eq_ok {I : β → Prop}
    (step : ∀ b a b', I b → f b a = .ok b' → I b') {l : List α} {b b' : β} (hb : I b)
    (h : l.foldlM f b = .ok b') : I b' :=
  foldlM_eq_ok_of_left (I := fun _ => I) (fun b a _ b' => step b a b') hb h

/-- A fold that fails fails at some element. -/
theorem foldlM_eq_error {I : β → Prop} {e : ε} (step : ∀ b a b', I b → f b a = .ok b' → I b') :
    ∀ {l : List α} {b : β}, I b → l.foldlM f b = .error e → ∃ b' a, I b' ∧ a ∈ l ∧ f b' a = .error e
  | a :: l, b, hb, h => by
    rw [List.foldlM_cons] at h
    rcases bind_eq_error.mp h with h | ⟨b₁, h₁, h⟩
    · exact ⟨b, a, hb, .head _, h⟩
    · obtain ⟨b', a', hb', ha', he⟩ := foldlM_eq_error step (step b a b₁ hb h₁) h
      exact ⟨b', a', hb', .tail _ ha', he⟩

variable {f : α → Except ε β}

/-- A map that fails fails at some element. -/
theorem mem_of_mapM_eq_error {e : ε} : ∀ {l : List α}, l.mapM f = .error e → ∃ a ∈ l, f a = .error e
  | a :: l, h => by
    rw [List.mapM_cons] at h
    rcases bind_eq_error.mp h with h | ⟨b, -, h⟩
    · exact ⟨a, .head _, h⟩
    · rcases bind_eq_error.mp h with h | ⟨bs, -, h⟩
      · obtain ⟨a', ha', h⟩ := mem_of_mapM_eq_error h
        exact ⟨a', .tail _ ha', h⟩
      · cases h

/-- A map succeeds if it succeeds at every element, and its results stand at their places. -/
theorem mapM_eq_ok_iff : ∀ {l : List α} {bs : List β},
    l.mapM f = .ok bs ↔ List.Forall₂ (fun a b => f a = .ok b) l bs
  | [], bs => by rw [List.mapM_nil, pure_eq_ok, List.forall₂_nil_left_iff, eq_comm]
  | a :: l, bs => by
    simp only [List.mapM_cons, bind_eq_ok, pure_eq_ok, mapM_eq_ok_iff, List.forall₂_cons_left_iff,
      exists_and_left, eq_comm (a := bs)]

variable {l : List α} {bs : List β}

theorem getElem?_of_mapM_eq_ok {b : β} {i : Nat} (h : l.mapM f = .ok bs) (hb : bs[i]? = some b) :
    ∃ a, l[i]? = some a ∧ f a = .ok b := by
  have related := mapM_eq_ok_iff.mp h
  obtain ⟨hi, rfl⟩ := List.getElem?_eq_some_iff.mp hb
  have hi' : i < l.length := related.length_eq ▸ hi
  exact ⟨l[i], List.getElem?_eq_getElem hi', related.get hi' hi⟩

/-- Every result of a map comes from some element. -/
theorem mem_of_mapM_eq_ok (h : l.mapM f = .ok bs) : ∀ b ∈ bs, ∃ a ∈ l, f a = .ok b := by
  intro b hb
  obtain ⟨i, hi⟩ := List.mem_iff_getElem?.mp hb
  obtain ⟨a, ha, h⟩ := getElem?_of_mapM_eq_ok h hi
  exact ⟨a, List.mem_of_getElem? ha, h⟩

/-- A map that succeeds succeeds at every element. -/
theorem forall_mem_of_mapM_eq_ok (h : l.mapM f = .ok bs) : ∀ a ∈ l, ∃ b ∈ bs, f a = .ok b := by
  intro a ha
  have related := mapM_eq_ok_iff.mp h
  obtain ⟨i, hi, rfl⟩ := List.mem_iff_getElem.mp ha
  have hi' : i < bs.length := related.length_eq ▸ hi
  exact ⟨bs[i], List.getElem_mem hi', related.get hi hi'⟩

/-- The results of a map, beside what they come from. -/
theorem eq_ok_of_mem_zip (h : l.mapM f = .ok bs) : ∀ p ∈ l.zip bs, f p.1 = .ok p.2 :=
  fun _ hp => List.forall₂_zip (mapM_eq_ok_iff.mp h) hp

section Other

variable {δ α' β' : Type} {g : α' → Except δ β'} {i : α → α'} {j : β → β'}

/-- A map over other elements gives other results. -/
theorem mapM_map_eq_ok (h : ∀ a b, f a = .ok b → g (i a) = .ok (j b)) (hl : l.mapM f = .ok bs) :
    (l.map i).mapM g = .ok (bs.map j) := by
  rw [mapM_eq_ok_iff, List.forall₂_map_left_iff, List.forall₂_map_right_iff]
  exact (mapM_eq_ok_iff.mp hl).imp h

/-- A map over other elements, in another order, gives the results in another order. -/
theorem mapM_perm_map (h : ∀ a b, f a = .ok b → g (i a) = .ok (j b)) {l' : List α'}
    (hp : l'.Perm (l.map i)) (hl : l.mapM f = .ok bs) :
    ∃ bs', l'.mapM g = .ok bs' ∧ bs'.Perm (bs.map j) := by
  obtain ⟨bs', hbs', hp⟩ := List.perm_comp_forall₂ hp (mapM_eq_ok_iff.mp (mapM_map_eq_ok h hl))
  exact ⟨bs', mapM_eq_ok_iff.mpr hbs', hp⟩

end Other

/-- What is kept of other elements, in another order. -/
theorem filterMapM_perm_map {α' β' : Type} {f : α → Except ε (Option β)}
    {g : α' → Except ε (Option β')} {i : α → α'} {j : β → β'}
    (h : ∀ a o, f a = .ok o → g (i a) = .ok (o.map j)) {l' : List α'}
    (hp : l'.Perm (l.map i)) (hl : (l.mapM f).map (List.filterMap id) = .ok bs) :
    ∃ bs', (l'.mapM g).map (List.filterMap id) = .ok bs' ∧ bs'.Perm (bs.map j) := by
  obtain ⟨found, hfound, rfl⟩ := map_eq_ok.mp hl
  obtain ⟨found', hfound', hp⟩ := mapM_perm_map h hp hfound
  refine ⟨found'.filterMap id, by rw [hfound']; rfl, (hp.filterMap id).trans (.of_eq ?_)⟩
  rw [List.filterMap_map, List.map_filterMap]
  rfl

end Lists

theorem Failure.ofError_eq_ok {α : Type} {x : Except Error α} {a : α} :
    Failure.ofError x = .ok a ↔ x = .ok a := by
  cases x <;> simp [Failure.ofError]

theorem Failure.ofFault_eq_ok {α : Type} {x : Except Fault α} {a : α} :
    Failure.ofFault x = .ok a ↔ x = .ok a := by
  cases x <;> simp [Failure.ofFault]

namespace Traced

variable {ε α β : Type}

theorem bind_ok {x : Traced ε α} {f : α → Traced ε β} {b : β} :
    (x >>= f).outcome = .ok b ↔ ∃ a, x.outcome = .ok a ∧ (f a).outcome = .ok b := by
  rw [outcome_bind, bind_eq_ok]

theorem pure_ok {a b : α} : (Pure.pure a : Traced ε α).outcome = .ok b ↔ a = b := by
  rw [outcome_pure, Except.ok.injEq]

/-- A step that takes no fingerprint, run among steps that do. -/
theorem foldlM_outcome_ok {f : β → α → Traced ε β} {I : β → Prop}
    (step : ∀ b a b', I b → (f b a).outcome = .ok b' → I b') :
    ∀ {l : List α} {b b' : β}, I b → (l.foldlM f b).outcome = .ok b' → I b'
  | [], b, b', hb, h => by
    cases h
    exact hb
  | a :: l, b, b', hb, h => by
    rw [List.foldlM_cons] at h
    obtain ⟨b₁, h₁, h⟩ := bind_ok.mp h
    exact foldlM_outcome_ok step (step b a b₁ hb h₁) h

theorem lift_outcome (x : Except ε α) : (liftM x : Traced ε α).outcome = x := rfl

end Traced

theorem Failure.ofTraced_outcome_ok {α : Type} {x : Traced Fault α} {a : α} :
    (Failure.ofTraced x).outcome = .ok a ↔ x.outcome = .ok a := by
  rw [Failure.ofTraced, Traced.outcome_mapError, ok_of_mapError]

namespace Check

variable {α β : Type} {p q : Progress} {a : α}

/-- The step succeeds: it ends with a result and some progress. -/
def Gives (x : Check α) (p : Progress) (a : α) (q : Progress) : Prop :=
  (x.run p).outcome = .ok (a, q)

/-- A step whose result can be computed succeeds. -/
theorem gives_of_map {x : Check α} {f : α × Progress → β} {b : β}
    (h : (x.run p).outcome.toOption.map f = some b) : ∃ a q, x.Gives p a q ∧ f (a, q) = b := by
  obtain ⟨r, hr, hb⟩ := eq_ok_of_map h
  exact ⟨r.1, r.2, hr, hb⟩

theorem gives_pure {a b : α} : (pure a : Check α).Gives p b q ↔ a = b ∧ p = q := by
  simp [Gives]

theorem gives_bind {x : Check α} {f : α → Check β} {b : β} :
    (x >>= f).Gives p b q ↔ ∃ a r, x.Gives p a r ∧ (f a).Gives r b q := by
  simp only [Gives, StateT.run_bind, Traced.bind_ok, Prod.exists]

theorem not_gives_fail {cause : Cause} {position : Position} :
    ¬ (fail cause position : Check α).Gives p a q := by
  intro h
  cases h

theorem gives_lift {x : Traced Failure α} :
    (liftM x : Check α).Gives p a q ↔ x.outcome = .ok a ∧ p = q := by
  show (x >>= fun a => (pure (a, p) : Traced Failure (α × Progress))).outcome = .ok (a, q) ↔ _
  simp only [Traced.bind_ok, Traced.pure_ok, Prod.mk.injEq]
  constructor
  · rintro ⟨b, hb, rfl, rfl⟩
    exact ⟨hb, rfl⟩
  · rintro ⟨ha, rfl⟩
    exact ⟨a, ha, rfl, rfl⟩

theorem gives_ofTraced {x : Traced Fault α} :
    (ofTraced x).Gives p a q ↔ x.outcome = .ok a ∧ p = q := by
  rw [ofTraced, gives_lift, Failure.ofTraced_outcome_ok]

theorem gives_ofFault {x : Except Fault α} : (ofFault x).Gives p a q ↔ x = .ok a ∧ p = q := by
  rw [ofFault, gives_ofTraced, Traced.outcome_ofExcept]

theorem gives_ofError {x : Except Error α} : (ofError x).Gives p a q ↔ x = .ok a ∧ p = q := by
  rw [ofError, gives_lift, Traced.outcome_ofExcept, Failure.ofError_eq_ok]

theorem gives_get {a : Progress} : (get : Check Progress).Gives p a q ↔ p = a ∧ p = q := by
  simp [Gives]

theorem gives_set {r : Progress} {u : PUnit} : (set r : Check PUnit).Gives p u q ↔ r = q := by
  simp [Gives]

theorem gives_modify {f : Progress → Progress} {u : PUnit} :
    (modify f : Check PUnit).Gives p u q ↔ f p = q := by
  simp [Gives]

theorem gives_spend {weight limit : Weight} {position : Position} {u : Unit} :
    (spend weight limit position).Gives p u q ↔
      q = { p with spent := p.spent + weight } ∧ (p.spent + weight).le limit = true := by
  simp only [spend, gives_bind, gives_get]
  constructor
  · rintro ⟨_, _, ⟨rfl, rfl⟩, h⟩
    split at h
    · exact absurd h not_gives_fail
    · next hl =>
      refine ⟨(gives_set.mp h).symm, ?_⟩
      rw [Weight.le, Bool.not_eq_true']
      exact Bool.not_eq_true _ ▸ hl
  · rintro ⟨rfl, hl⟩
    rw [Weight.le, Bool.not_eq_true'] at hl
    refine ⟨p, p, ⟨rfl, rfl⟩, ?_⟩
    rw [if_neg (by rw [hl]; exact Bool.false_ne_true)]
    exact gives_set.mpr rfl

theorem gives_newSlot {slot : Nat} :
    newSlot.Gives p slot q ↔ p.slots = slot ∧ { p with slots := p.slots + 1 } = q := by
  simp only [newSlot, gives_bind, gives_get, gives_set, gives_pure]
  constructor
  · rintro ⟨_, _, ⟨rfl, rfl⟩, _, _, rfl, rfl, rfl⟩
    exact ⟨rfl, rfl⟩
  · rintro ⟨rfl, rfl⟩
    exact ⟨p, p, ⟨rfl, rfl⟩, ⟨⟩, _, rfl, rfl, rfl⟩

/-- A statement runs with a budget of its own, and hands out storage like its parts. -/
theorem gives_statement {step : Check α} :
    (statement step).Gives p a q ↔
      ∃ r, step.Gives { p with spent := .zero } a r ∧ { r with spent := p.spent } = q := by
  simp only [statement, gives_bind, gives_get, gives_modify, gives_pure]
  constructor
  · rintro ⟨_, _, ⟨rfl, rfl⟩, _, _, rfl, _, r, h, _, _, rfl, rfl, rfl⟩
    exact ⟨r, h, rfl⟩
  · rintro ⟨r, h, rfl⟩
    exact ⟨p, p, ⟨rfl, rfl⟩, ⟨⟩, _, rfl, a, r, h, ⟨⟩, _, rfl, rfl, rfl⟩

end Check

end Gauge
