import Gauge.Code.Listing
import Gauge.Proofs.Code.Operands
import Gauge.Proofs.Module.Safe

/-!
# Proofs — every program that is accepted has a listing

The only thing in a listing that could break a rule is the comparison of the two types of a binary
operator.  In the code of a well-typed tree both are builtin (`Function.emit_writable`), so the text
of a module can be written (`Module.listing_defined`).  The functions that are called in the code
are those that the tree calls.
-/

namespace Gauge

/-! ### The events of a function -/

/-- The types of a binary operator are builtin: they are made without structs.  A function that is
called is one of `F`. -/
def Event.Writable (F : Callee → Prop) : Event → Prop
  | .binary _ _ _ _ operandType type =>
    operandType.Native (fun _ => False) ∧ type.Native fun _ => False
  | .call _ c _ => F c
  | _ => True

variable {F : Callee → Prop}

/-- The overload of an operator says what it is applied to. -/
theorem Event.Overloaded.writable {e : Event} (h : e.Overloaded) (hc : e.Calls F) :
    e.Writable F := by
  cases e with
  | binary id op left right operandType type =>
    obtain ⟨o, ho, ht, rfl⟩ := h
    obtain ⟨parameters, native⟩ := Builtin.overload_native (K := fun _ => False) ho
    exact ⟨parameters operandType ht, native⟩
  | call id c arguments => exact hc
  | _ => trivial

theorem Function.emit_writable {st : Structs} {f : Function} (h : f.WellTyped st)
    (hs : f.Scoped F) : ∀ e ∈ f.emit.events, e.Writable F := by
  intro e he
  obtain ⟨s, b, tidy⟩ := emit_tidy h hs
  obtain ⟨i, hi, rfl⟩ := List.mem_iff_getElem.mp he
  have fits := (emit_fits h).get hi ((emit_fits h).length_eq ▸ hi)
  exact fits.2.writable (tidy.calls _ he)

/-! ### The text -/

namespace Write

variable {α β : Type}

/-- The text can be written, whatever was mentioned before. -/
def Defined (x : Write α) : Prop := ∀ m, ∃ r, (x.run m).outcome = .ok r

theorem defined_pure {a : α} : (pure a : Write α).Defined := fun m => ⟨(a, m), rfl⟩

theorem Defined.bind {x : Write α} {f : α → Write β} (hx : x.Defined) (hf : ∀ a, (f a).Defined) :
    (x >>= f).Defined := by
  intro m
  obtain ⟨⟨a, m'⟩, hr⟩ := hx m
  rw [StateT.run_bind, Traced.outcome_bind, hr, ok_bind]
  exact hf a m'

theorem defined_value {id : ValueId} : (value id).Defined := fun _ => ⟨_, rfl⟩

theorem defined_label {l : Label} : (label l).Defined := fun _ => ⟨_, rfl⟩

theorem defined_values : ∀ {ids : List ValueId}, (values ids).Defined
  | [] => defined_pure
  | _ :: _ => defined_value.bind fun _ => defined_values.bind fun _ => defined_pure

theorem defined_lift {x : Traced Fault α} (h : ∃ a, x.outcome = .ok a) :
    (liftM x : Write α).Defined := by
  intro m
  obtain ⟨a, ha⟩ := h
  refine ⟨(a, m), ?_⟩
  show (x >>= fun a => (pure (a, m) : Traced Fault (α × Mentions))).outcome = _
  rw [Traced.outcome_bind, ha]
  rfl

theorem Defined.alone {x : Write String} (h : x.Defined) : ∃ text, x.alone.outcome = .ok text := by
  obtain ⟨r, hr⟩ := h ⟨[], []⟩
  refine ⟨r.1, ?_⟩
  rw [Write.alone, Traced.outcome_bind, hr]
  rfl

end Write

variable {st : Structs}

open Write

/-- What can be written is written. -/
theorem Event.write_defined {shown : Callee → String} {e : Event} (h : e.Writable F) :
    (e.write st shown).Defined := by
  cases e with
  | literal _ _ _ | null _ _ | allocate _ _ _ => exact defined_value.bind fun _ => defined_pure
  | store _ _ | load _ _ _ | convert _ _ _ _ _ | nonNull _ _ | unary _ _ _ _ | branchResult _ _ =>
    exact defined_value.bind fun _ => defined_value.bind fun _ => defined_pure
  | call _ _ _ => exact defined_value.bind fun _ => defined_values.bind fun _ => defined_pure
  | binary _ _ _ _ operandType type =>
    refine defined_value.bind fun _ => defined_value.bind fun _ => defined_value.bind fun _ => ?_
    refine (defined_lift ?_).bind fun _ => defined_pure
    obtain ⟨same, hsame, -⟩ := Structs.compare_native (s := st) (fun _ _ hf => hf.elim) h.1 h.2
    exact ⟨same, hsame⟩
  | branch _ _ _ _ _ =>
    exact defined_value.bind fun _ => defined_value.bind fun _ => defined_label.bind fun _ =>
      defined_label.bind fun _ => defined_pure
  | label _ | jump _ => exact defined_label.bind fun _ => defined_pure
  | ret value =>
    cases value with
    | none => exact defined_pure
    | some id => exact defined_value.bind fun _ => defined_pure

theorem Write.defined_parameters : ∀ {as : List (ValueId × Argument)}, (Write.parameters as).Defined
  | [] => defined_pure
  | _ :: _ => defined_value.bind fun _ => defined_parameters.bind fun _ => defined_pure

/-- An event is as `Event.Writable` says, and a function that is defined is one of `F`. -/
def Entry.Writable (F : Callee → Prop) : Entry → Prop
  | .enterFunction id _ _ => ∃ c, F c ∧ c.id = id
  | .event e => e.Writable F
  | _ => True

theorem Entry.write_defined {symbols : Symbols} {e : Entry} (h : e.Writable F) :
    (e.write st symbols).Defined := by
  cases e with
  | enterFunction _ _ _ => exact defined_parameters.bind fun _ => defined_pure
  | beginFunction => exact fun _ => ⟨_, rfl⟩
  | event e => exact Event.write_defined h
  | _ => exact defined_pure

theorem Entry.writeAll_defined : ∀ {es : List Entry} {symbols : Symbols},
    (∀ e ∈ es, e.Writable F) → (Entry.writeAll st symbols es).Defined
  | [], _, _ => defined_pure
  | e :: es, _, h => by
    obtain ⟨he, hes⟩ := List.forall_mem_cons.mp h
    exact (Entry.write_defined he).bind fun _ => (Entry.writeAll_defined hes).bind fun _ =>
      defined_pure

theorem Function.entries_writable {f : Function} (h : f.WellTyped st) (hs : f.Scoped F) :
    ∀ e ∈ f.entries, e.Writable F := by
  simp only [Function.entries, List.cons_append, List.forall_mem_cons, List.forall_mem_append,
    List.forall_mem_map]
  exact ⟨trivial, ⟨_, hs.callee, rfl⟩, emit_writable h hs, trivial, nofun⟩

namespace Module

variable {st : Structs} {m : Module}

/-- Only functions of `F` are called and defined in a module whose functions are all `F`'s. -/
theorem entries_writable (h : ∀ f ∈ m.functions, f.WellTyped st ∧ f.Scoped F) :
    ∀ e ∈ m.entries, e.Writable F := by
  simp only [entries, List.cons_append, List.forall_mem_cons, List.forall_mem_append,
    List.forall_mem_map, List.mem_flatMap]
  refine ⟨trivial, ⟨fun _ _ => trivial, ?_⟩, trivial, nofun⟩
  rintro e ⟨f, hf, he⟩
  exact Function.entries_writable (h f hf).1 (h f hf).2 e he

/-- The text of a module of well-typed functions. -/
theorem listing_defined (h : ∀ f ∈ m.functions, f.WellTyped st ∧ f.Scoped F) :
    ∃ text, (m.listing st).outcome = .ok text :=
  (Entry.writeAll_defined (entries_writable h)).alone

end Module

end Gauge
