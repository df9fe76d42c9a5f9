import Gauge.Compile
import Gauge.Proofs.Code.Listing
import Gauge.Proofs.Syntax.Names

/-!
# Proofs — how compilation ends

Whatever its text is, a program has a listing or an error, unless one of its structs takes more
bytes than 32 bits can say; then the compiler stops at an addition or a product of sizes
(`compile_ends`). No other rule of the library is broken on the way: the text is cut between
characters, the passes over the module are safe, and what they accept can be written down.  Once the
text is cut into tokens, whatever is wrong with it is wrong where a token starts.
-/

namespace Gauge

theorem Cause.IsTextual.clear {cause : Cause} (h : cause.IsTextual) :
    cause.isAmbiguousCast = false := by
  cases cause <;> first | rfl | exact h.elim

/-- The text is that of a module, and one of its structs is too large. -/
def HasOversized (limits : Limits) (file source : String) : Prop :=
  ∃ tokens tree reserved s, tokenize file source = .ok tokens ∧ parse file tokens = .ok tree ∧
    Module.reserve (Scope.standard limits).push tree.items = .ok (reserved, s) ∧
    Module.Oversized s reserved.structs

/-- What may go wrong with a text: an error stands where a token starts, if the text has tokens, and
a size overflows only if a struct is too large. -/
def leeway (limits : Limits) (file source : String) : Leeway where
  place p := ∀ tokens, tokenize file source = .ok tokens → Begins tokens p
  untyped := False
  oversized := HasOversized limits file source

/-- Checking a program breaks no rule and meets no ambiguous conversion, and what is accepted is
well typed and calls functions of the program. -/
theorem analyze_safe (limits : Limits) (name file source : String) :
    Failure.Safe (leeway limits file source)
      (fun r => ∀ f ∈ r.1.functions, f.WellTyped r.2.structs ∧
        f.Scoped fun c => ∃ id, r.2.callee? id = some c)
      (analyze limits name file source) := by
  refine (Failure.safe_ofError (fun _ => id) fun e he =>
    ⟨(tokenize_error_textual he).1.clear, ?_⟩).bind
    fun tokens ht => ?_
  · intro tokens ht
    cases he.symm.trans ht
  have shown : ∀ p, Begins tokens p → (leeway limits file source).place p := by
    intro p h tokens' ht'
    cases ht.symm.trans ht'
    exact h
  refine Failure.Ends.bind (P := fun tree => parse file tokens = .ok tree) ?_ fun tree hm => ?_
  · cases hp : parse file tokens with
    | ok tree => exact rfl
    | error f =>
      obtain ⟨e, rfl, textual, begins⟩ := parse_error_placed ht hp
      exact ⟨textual.clear, shown _ begins⟩
  have safe := Module.build_safe limits name file tree (parse_placed ht hm shown)
    fun reserved s hr large => ⟨tokens, tree, reserved, s, ht, hm, hr, large⟩
  exact (safe.and fun r hr => Module.build_functions hr).mono fun r h => h.2

theorem compile_safe (limits : Limits) (file source : String) :
    Failure.Safe (leeway limits file source) (fun _ => True) (compile limits file source) := by
  refine (analyze_safe limits (moduleName file) file source).bind ?_
  rintro ⟨m, scope⟩ h
  obtain ⟨text, ht⟩ := Module.listing_defined h
  exact Failure.safe_ofFault ⟨text, ht, trivial⟩

/-- **Every text compiles to a listing or to an error of the program, if its structs fit.**  The
only fault that can be met on the way is a size that overflows, which needs a struct that takes more
bytes than 32 bits can say.  All offsets at which the text is cut into tokens, or at which that
fails, lie between characters. -/
theorem compile_ends (limits : Limits) (file source : String) :
    ((∃ listing, compile limits file source = .ok listing) ∨
        (∃ e, compile limits file source = .error (.error e)) ∨
        ∃ fault, compile limits file source = .error (.fault fault) ∧ fault.IsOverflow ∧
          HasOversized limits file source) ∧
      Cuts source (tokenize file source) := by
  refine ⟨?_, tokenize_cuts file source⟩
  have safe := compile_safe limits file source
  cases h : compile limits file source with
  | ok listing => exact .inl ⟨listing, rfl⟩
  | error f =>
    rw [h] at safe
    cases f with
    | error e => exact .inr (.inl ⟨e, rfl⟩)
    | fault fault =>
      obtain ⟨-, untyped⟩ | ⟨overflow, large⟩ := safe
      · exact untyped.elim
      · exact .inr (.inr ⟨fault, rfl, overflow, large⟩)

end Gauge
