import Gauge.Proofs.Success

/-!
# Proofs — how steps end

A step ends with a result or it fails, and `Failure.Ends F P` says what is known of either.  Steps
that are put together end as their parts do, so it is enough to look at the calls that may fail,
each with what is known at its place.

A step is safe if it meets no ambiguous conversion and fails in no way but those that are foreseen
(`Leeway`): with errors at certain places, and with two faults of the library, if there are
variables of which no type is known or structs that are too large.
-/

namespace Gauge

/-- Whether the error is that of an ambiguous conversion. -/
def Cause.isAmbiguousCast : Cause → Bool
  | .ambiguousCast _ _ => true
  | _ => false

/-- How a step may fail: where its errors stand, whether there are variables that have neither a
type nor an initial value, and whether there are structs that are too large. -/
structure Leeway where
  place : Position → Prop
  untyped : Prop
  oversized : Prop

namespace Leeway

instance : CoeFun Leeway fun _ => Position → Prop := ⟨place⟩

/-- Everything is foreseen. -/
def all : Leeway := ⟨fun _ => True, True, True⟩

end Leeway

/-- Whether a size does not fit in 32 bits. -/
def Fault.IsOverflow (f : Fault) : Prop := f = .addOverflow ∨ f = .multiplyOverflow

/-- An error at a place as `L` says, but not that of an ambiguous conversion. -/
def Error.IsPlain (L : Leeway) (e : Error) : Prop :=
  e.cause.isAmbiguousCast = false ∧ L e.position

variable {α β : Type} {F : Failure → Prop} {L : Leeway} {P Q : α → Prop} {R : β → Prop}

/-- A step that succeeds on every element of a list succeeds on the list. -/
theorem mapM_defined {ε : Type} {f : α → Except ε β} :
    ∀ {l : List α}, (∀ a ∈ l, ∃ b, f a = .ok b) → ∃ bs, l.mapM f = .ok bs
  | [], _ => ⟨[], rfl⟩
  | a :: l, h => by
    obtain ⟨b, hb⟩ := h a (.head _)
    obtain ⟨bs, hbs⟩ := mapM_defined fun a' ha' => h a' (.tail _ ha')
    refine ⟨b :: bs, ?_⟩
    rw [List.mapM_cons, hb, ok_bind, hbs]
    rfl

namespace Failure

variable {x : Except Failure α}

/-- A failure of the step is as `F` says, and its result has the property. -/
def Ends (F : Failure → Prop) (P : α → Prop) : Except Failure α → Prop
  | .ok a => P a
  | .error f => F f

theorem Ends.mono (h : Ends F P x) (hPQ : ∀ a, P a → Q a) : Ends F Q x := by
  cases x with
  | ok a => exact hPQ a h
  | error f => exact h

/-- Whatever else is known of the result of a step. -/
theorem Ends.and (h : Ends F P x) (hQ : ∀ a, x = .ok a → Q a) : Ends F (fun a => P a ∧ Q a) x := by
  cases x with
  | ok a => exact ⟨h, hQ a rfl⟩
  | error f => exact h

theorem Ends.bind {f : α → Except Failure β} (hx : Ends F P x)
    (hf : ∀ a, P a → Ends F R (f a)) : Ends F R (x >>= f) := by
  cases x with
  | ok a => exact hf a hx
  | error f => exact hx

theorem Ends.traced {x : Traced Failure α} {f : α → Traced Failure β} (hx : Ends F P x.outcome)
    (hf : ∀ a, P a → Ends F R (f a).outcome) : Ends F R (x >>= f).outcome := by
  rw [Traced.outcome_bind]
  exact hx.bind hf

theorem ofError_bind {x : Except Error α} {f : α → Except Error β} :
    ofError (x >>= f) = ofError x >>= fun a => ofError (f a) := by
  cases x <;> rfl

theorem ends_ofError {x : Except Error α} (h : ∀ a, x = .ok a → P a)
    (he : ∀ e, x = .error e → F (.error e)) : Ends F P (ofError x) := by
  cases x with
  | ok a => exact h a rfl
  | error e => exact he e rfl

/-- A step of a fold may rely on what is to come: `I` speaks of the elements that are left. -/
theorem ends_foldlM {f : β → α → Except Failure β} {I : List α → β → Prop}
    (step : ∀ b a l, I (a :: l) b → Ends F (I l) (f b a)) :
    ∀ {l : List α} {b : β}, I l b → Ends F (I []) (l.foldlM f b)
  | [], _, h => h
  | a :: l, b, h => by
    rw [List.foldlM_cons]
    exact (step b a l h).bind fun b' h' => ends_foldlM step h'

/-- A plain error of the program, or a fault that is foreseen. -/
def IsPlain (L : Leeway) : Failure → Prop
  | .error e => e.IsPlain L
  | .fault f => (∃ name, f = .untypedVariable name) ∧ L.untyped ∨ f.IsOverflow ∧ L.oversized

/-- The step fails in no way but those that are foreseen, and its result has the property. -/
abbrev Safe (L : Leeway) (P : α → Prop) : Except Failure α → Prop := Ends (IsPlain L) P

theorem safe_ofError {x : Except Error α} (h : ∀ a, x = .ok a → P a)
    (he : ∀ e, x = .error e → e.IsPlain L) : Safe L P (ofError x) :=
  ends_ofError h he

theorem safe_ofFault {x : Except Fault α} (h : ∃ a, x = .ok a ∧ P a) : Safe L P (ofFault x) := by
  obtain ⟨a, rfl, ha⟩ := h
  exact ha

theorem safe_ofTraced {x : Traced Fault α} (h : ∃ a, x.outcome = .ok a ∧ P a) :
    Safe L P (ofTraced x).outcome := by
  obtain ⟨a, ha, hP⟩ := h
  rw [ofTraced, Traced.outcome_mapError, ha]
  exact hP

end Failure

theorem Traced.foldlM_outcome {ε : Type} {f : β → α → Traced ε β} :
    ∀ (l : List α) (b : β), (l.foldlM f b).outcome = l.foldlM (fun b a => (f b a).outcome) b
  | [], _ => rfl
  | a :: l, b => by
    rw [List.foldlM_cons, List.foldlM_cons, outcome_bind]
    congr 1
    funext b'
    exact foldlM_outcome l b'

namespace Check

variable {x : Check α}

/-- From any progress on, a failure of the step is as `F` says, and its result has the property. -/
def Ends (F : Failure → Prop) (x : Check α) (P : α → Prop) : Prop :=
  ∀ p, Failure.Ends F (fun r => P r.1) (x.run p).outcome

theorem Ends.mono (h : x.Ends F P) (hPQ : ∀ a, P a → Q a) : x.Ends F Q :=
  fun p => (h p).mono fun r => hPQ r.1

/-- What the step gives wherever it succeeds. -/
theorem Ends.and (h : x.Ends F P) (hQ : ∀ p a q, x.Gives p a q → Q a) :
    x.Ends F fun a => P a ∧ Q a :=
  fun p => (h p).and fun r hr => hQ p r.1 r.2 hr

theorem Ends.gives (h : x.Ends F P) {p q : Progress} {a : α} (hx : x.Gives p a q) : P a := by
  have hp := h p
  rw [show (x.run p).outcome = .ok (a, q) from hx] at hp
  exact hp

theorem ends_pure {a : α} (h : P a) : Ends F (pure a) P := fun _ => h

theorem Ends.bind {f : α → Check β} (hx : x.Ends F P)
    (hf : ∀ a, P a → (f a).Ends F R) : (x >>= f).Ends F R := by
  intro p
  rw [StateT.run_bind, Traced.outcome_bind]
  exact (hx p).bind fun r hr => hf r.1 hr r.2

theorem ends_lift {x : Traced Failure α} (h : Failure.Ends F P x.outcome) :
    Ends F (liftM x : Check α) P := by
  intro p
  show Failure.Ends F _ (x >>= fun a => (pure (a, p) : Traced Failure (α × Progress))).outcome
  rw [Traced.outcome_bind]
  exact h.bind fun a ha => ha

theorem ends_spend {weight limit : Weight} {position : Position}
    (h : F (.error ⟨.expressionTooExpensive, position⟩)) :
    (spend weight limit position).Ends F fun _ => True := by
  intro p
  simp only [spend, StateT.run_bind, Traced.outcome_bind, StateT.run_get, Traced.outcome_pure,
    ok_bind]
  split
  · exact h
  · trivial

theorem ends_newSlot : newSlot.Ends F fun _ => True := fun _ => trivial

theorem ends_statement {step : Check α} (h : step.Ends F P) : (statement step).Ends F P := by
  intro p
  show Failure.Ends F _ (step.run { p with spent := .zero } >>= fun r =>
    (pure (r.1, { r.2 with spent := p.spent }) : Traced Failure (α × Progress))).outcome
  rw [Traced.outcome_bind]
  exact (h _).bind fun r hr => hr

/-- From any progress on, the step fails in no way but those that are foreseen, and its result has
the property. -/
abbrev Safe (L : Leeway) (x : Check α) (P : α → Prop) : Prop := x.Ends (Failure.IsPlain L) P

theorem safe_fail {cause : Cause} {position : Position} (h : cause.isAmbiguousCast = false)
    (ho : L position) :
    (fail cause position : Check α).Safe L P := fun _ => ⟨h, ho⟩

theorem safe_ofError {x : Except Error α} (h : ∀ a, x = .ok a → P a)
    (he : ∀ e, x = .error e → e.IsPlain L) : (ofError x).Safe L P :=
  ends_lift (Failure.safe_ofError h he)

theorem safe_ofTraced {x : Traced Fault α} (h : ∃ a, x.outcome = .ok a ∧ P a) :
    (ofTraced x).Safe L P :=
  ends_lift (Failure.safe_ofTraced h)

theorem safe_ofFault {x : Except Fault α} (h : ∃ a, x = .ok a ∧ P a) : (ofFault x).Safe L P :=
  safe_ofTraced h

end Check

end Gauge
