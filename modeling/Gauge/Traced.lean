import Gauge.Fault
import Gauge.Ty

/-!
# Work that leaves a trace

Comparing types may take the fingerprint of a struct, and a fingerprint that was taken is kept from
then on.  `Traced` is work with an outcome and with the structs it took fingerprints of; those are
kept also when the work fails later on.  The outcome never depends on the trace
(`outcome_bind`): it is that of the same work in `Except`.
-/

namespace Gauge

/-- The outcome of some work, and the structs whose fingerprints it took. -/
structure Traced (ε α : Type) where
  taken : List StructRef
  outcome : Except ε α

namespace Traced

variable {ε δ α β : Type}

/-- Work that takes no fingerprint. -/
def ofExcept (x : Except ε α) : Traced ε α := ⟨[], x⟩

def pure (a : α) : Traced ε α := ofExcept (.ok a)

def bind (x : Traced ε α) (f : α → Traced ε β) : Traced ε β :=
  match x.outcome with
  | .ok a => ⟨x.taken ++ (f a).taken, (f a).outcome⟩
  | .error e => ⟨x.taken, .error e⟩

instance : Monad (Traced ε) where
  pure := Traced.pure
  bind := Traced.bind

instance : MonadLift (Except ε) (Traced ε) where
  monadLift := ofExcept

/-- Goes on after a failure; what was taken before it stays taken. -/
def tryCatch (x : Traced ε α) (handle : ε → Traced ε α) : Traced ε α :=
  match x.outcome with
  | .ok _ => x
  | .error e => ⟨x.taken ++ (handle e).taken, (handle e).outcome⟩

instance : MonadExceptOf ε (Traced ε) where
  throw e := ofExcept (.error e)
  tryCatch := Traced.tryCatch

/-- The same work with another kind of failure. -/
def mapError (f : ε → δ) (x : Traced ε α) : Traced δ α := ⟨x.taken, x.outcome.mapError f⟩

@[simp] theorem outcome_ofExcept (x : Except ε α) : (ofExcept x).outcome = x := rfl

@[simp] theorem outcome_pure (a : α) : (Pure.pure a : Traced ε α).outcome = .ok a := rfl

@[simp] theorem outcome_bind (x : Traced ε α) (f : α → Traced ε β) :
    (x >>= f).outcome = x.outcome >>= fun a => (f a).outcome := by
  obtain ⟨_, _ | _⟩ := x <;> rfl

@[simp] theorem outcome_throw (e : ε) : (throw e : Traced ε α).outcome = .error e := rfl

@[simp] theorem outcome_mapError (f : ε → δ) (x : Traced ε α) :
    (x.mapError f).outcome = x.outcome.mapError f := rfl

instance : LawfulMonad (Traced ε) := LawfulMonad.mk' (Traced ε)
  (by rintro α ⟨_, _ | _⟩ <;> simp [Functor.map, bind, pure, ofExcept])
  (by intro α β a f; simp [Bind.bind, Pure.pure, bind, pure, ofExcept])
  (by
    rintro α β γ ⟨_, _ | a⟩ f g
    · rfl
    · cases h : (f a).outcome <;> simp [Bind.bind, bind, h])

end Traced

/-- Work that no program text can bring to an error. -/
def Failure.ofTraced {α : Type} (x : Traced Fault α) : Traced Failure α := x.mapError .fault

end Gauge
