import Gauge.Proofs.Typed.Rules
import Gauge.Proofs.Typed.Scoring

/-!
# Proofs — literals, weighed and converted

An overload is chosen by what its operands weigh, and the operands are converted once it is chosen.
For all but literals the two agree: an operand has a weight exactly if it can be converted.  A
number or a null pointer, however, can also be taken for a value of the target type, and no
conversion has to be found for that; where there is none, the literal is good for a variable of the
type but not for a parameter (`Constant.Retyped`).

Main statement: `converts_iff_weighed`.
-/

namespace Gauge

/-! ### Constants -/

namespace Constant

/-- A constant as it is typed before anything is expected of it. -/
def typed (span : Span) : Constant → Typed
  | .integer n => .number n span
  | .bool b => .plain (.constant (.bool b)) Builtin.bool (.bools (.exactly b)) span
  | .null =>
    .plain (.constant .null) (.pointerTo Builtin.void) (.pointer .void (.exactly false)) span

/-- A number that a word can hold. -/
def Word : Constant → Prop
  | .integer n => n < 2 ^ 64
  | _ => True

/-- The constant can be taken for a value of the type. -/
def Adoptable (t : Ty) : Constant → Prop
  | .integer n => t.isInteger = true ∧ ∃ low high, t.bounds? = some (low, high) ∧ (n : Int) ≤ high
  | .bool _ => False
  | .null => t.isPointer = true

/-- The constant can be taken for a value of a type that it cannot be converted to: a null pointer
for any but `*Void`, and a number for an integer type that is not builtin. -/
def Retyped (s : Structs) (t : Ty) : Constant → Prop
  | .integer n => (integer n).Adoptable t ∧ ∀ i ∈ Builtin.integers, s.form t ≠ s.form i
  | .bool _ => False
  | .null => t.isPointer = true ∧ s.form t ≠ s.form (.pointerTo Builtin.void)

variable {R : StructRef → Prop} {scope : Scope} {s : Structs} {t : Ty} {c : Constant} {span : Span}

theorem Retyped.adoptable (h : c.Retyped s t) : c.Adoptable t := by
  cases c with
  | integer n => exact h.1
  | bool b => exact h.elim
  | null => exact h.1

theorem node_typed : (c.typed span).node = .constant c := by
  cases c <;> rfl

/-- A constant is taken for a value of the type where the type can hold it. -/
theorem adopt_typed (hf : t.isFlagged = false) :
    ∃ adopted, (c.typed span).adopt scope t = .ok adopted ∧
      (adopted.isSome = true ↔ c.Adoptable t) := by
  have unflagged : (!(c.typed span).facts.chain.isIdentity || t.isFlagged) = false := by
    rw [hf]
    cases c <;> rfl
  unfold Typed.adopt
  rw [unflagged, node_typed]
  cases c with
  | integer n =>
    dsimp only [Adoptable]
    cases hb : t.bounds? with
    | none => exact ⟨none, rfl, by simp⟩
    | some b =>
      obtain ⟨low, high⟩ := b
      by_cases hn : t.isInteger = true ∧ (n : Int) ≤ high
      · have := Ty.low_le_high hb
        have range : ∃ r, Range.literal t n = .ok r := by
          have inside : low ≤ (n : Int) ∧ (n : Int) ≤ n ∧ (n : Int) ≤ high :=
            ⟨by omega, le_refl _, hn.2⟩
          rw [Range.literal, Ty.not_bool_of_bounds hb]
          simp only [Bool.false_eq_true, if_false, Range.integer, hb, if_pos inside]
          exact ⟨_, rfl⟩
        obtain ⟨r, hr⟩ := range
        simp only [if_pos hn, hr]
        exact ⟨_, rfl, by simp [hn]⟩
      · simp only [if_neg hn]
        exact ⟨none, rfl, by simpa using hn⟩
  | bool b => exact ⟨none, rfl, by simp [Adoptable]⟩
  | null =>
    cases t with
    | pointer f m p => exact ⟨_, rfl, by simp [Adoptable, Ty.isPointer, Ty.pointed?]⟩
    | _ => exact ⟨none, rfl, by simp [Adoptable, Ty.isPointer, Ty.pointed?]⟩

/-- A constant that is no number is what it is. -/
theorem not_becomes (hc : ∀ n, c ≠ .integer n) {r : Range} :
    ¬ Builtin.Becomes s (c.typed span).type r t := by
  intro h
  cases c with
  | integer n => exact hc n rfl
  | bool b =>
    cases h with
    | value hf _ => cases hf
    | integer hi _ h _ _ =>
      have other : ∀ i ∈ Builtin.integers, Builtin.bool ≠ i := by decide
      exact other _ hi (Builtin.eq_of_form (by decide) (Builtin.mem_all_of_integers hi)
        (show s.form Builtin.bool = _ from h))
    | pointer h _ _ => cases h
  | null =>
    cases h with
    | value hf _ => cases hf
    | integer hi _ h _ _ =>
      obtain ⟨d, rfl, -⟩ := Builtin.scalar_of_mem (Builtin.mem_all_of_integers hi)
      cases h
    | pointer h hm _ =>
      cases h
      cases hm

theorem isInteger_of_form {i : Ty} (hi : i ∈ Builtin.integers) (h : s.form t = s.form i) :
    t.isInteger = true := by
  have integer : i.isInteger = true := by
    have : ∀ i ∈ Builtin.integers, i.isInteger = true := by decide
    exact this i hi
  obtain ⟨d, rfl, -⟩ := Builtin.scalar_of_mem (Builtin.mem_all_of_integers hi)
  cases t with
  | scalar f e =>
    injection h with _ hk
    simpa [Ty.isInteger, Ty.hasKind, Ty.scalar?, hk] using integer
  | _ => cases h

/-- A number becomes a value of the builtin integer types that can hold it. -/
theorem becomes_number {n : Nat}
    (h : Builtin.Becomes s (Typed.number n span).type (Typed.number n span).range t) :
    (∃ i ∈ Builtin.integers, s.form t = s.form i) ∧ (integer n).Adoptable t := by
  obtain ⟨d, hd, -⟩ := Builtin.scalar_of_mem (Builtin.smallestUnsigned_mem_all n)
  rw [Typed.number, Typed.type_plain, Typed.range_plain, hd] at h
  cases h with
  | value hf _ => cases hf
  | integer _ hj _ h' fits =>
    obtain ⟨low, high, hb⟩ := Builtin.bounds_of_integers hj
    have hb : t.bounds? = some (low, high) := (Builtin.bounds_eq_of_form h').trans hb
    have admits := fits n ⟨le_refl _, le_refl _⟩
    exact ⟨⟨_, hj, h'⟩, isInteger_of_form hj h', low, high, hb, ((Ty.admits_iff hb).mp admits).2⟩
  | pointer h _ _ => cases h

/-- What fits a type is of the type, or can be taken for a value of it. -/
theorem of_fits (h : (c.typed span).Fits scope t) :
    scope.structs.form (c.typed span).type = scope.structs.form t ∨ c.Adoptable t := by
  refine h.imp_right fun hb => ?_
  cases c with
  | integer n => exact (becomes_number hb).2
  | bool b | null => exact absurd hb (not_becomes fun n h => by cases h)

/-- What can be taken for a value of a type fits it, unless only that makes it one. -/
theorem fits_iff_not_retyped (h : c.Adoptable t) :
    (c.typed span).Fits scope t ↔ ¬ c.Retyped scope.structs t := by
  cases c with
  | integer n =>
    obtain ⟨hi, low, high, hb, hn⟩ := h
    constructor
    · rintro hfits ⟨-, hnone⟩
      rcases hfits with hsame | hb
      · exact hnone _ (Builtin.smallestUnsigned_mem_integers n) hsame.symm
      · obtain ⟨⟨i, hi, hform⟩, -⟩ := becomes_number hb
        exact hnone i hi hform
    · intro hknown
      have : ∃ i ∈ Builtin.integers, scope.structs.form t = scope.structs.form i := by
        by_contra hnone
        exact hknown ⟨⟨hi, low, high, hb, hn⟩, fun i hi hform => hnone ⟨i, hi, hform⟩⟩
      obtain ⟨i, hi, hform⟩ := this
      exact Builtin.number_fits hi hform hb hn
  | bool b => exact h.elim
  | null =>
    have same : (Constant.null.typed span).Fits scope t ↔
        scope.structs.form (.pointerTo Builtin.void) = scope.structs.form t :=
      or_iff_left (not_becomes fun n h => by cases h)
    rw [same]
    constructor
    · rintro hform ⟨-, hne⟩
      exact hne hform.symm
    · intro hknown
      by_contra hne
      exact hknown ⟨h, Ne.symm hne⟩

/-- A constant fits the types it is good for, less those that it can only be taken for a value
of. -/
theorem fits_iff : (c.typed span).Fits scope t ↔
    (scope.structs.form (c.typed span).type = scope.structs.form t ∨ c.Adoptable t) ∧
      ¬ c.Retyped scope.structs t := by
  constructor
  · intro h
    exact ⟨of_fits h, fun hr => (fits_iff_not_retyped hr.adoptable).mp h hr⟩
  · rintro ⟨hform | hadopt, hr⟩
    · exact .inl hform
    · exact (fits_iff_not_retyped hadopt).mpr hr

end Constant

/-- The constant that a literal stands for, if it can be read. -/
def Literal.constant? : Literal → Option Constant
  | .number text => (readNumber text).toOption.map .integer
  | .bool b => some (.bool b)
  | .null => some .null

/-- A literal that can be taken for a value of a type that it cannot be converted to. -/
def Literal.Retyped (s : Structs) (t : Ty) (l : Literal) : Prop :=
  ∃ c, l.constant? = some c ∧ c.Retyped s t

/-- A constant that can be taken for a value of a type that it cannot be converted to. -/
def Typed.Retyped (s : Structs) (t : Ty) (e : Typed) : Prop :=
  ∃ c, e.node = .constant c ∧ c.Retyped s t

theorem Check.Gives.unique {α : Type} {x : Check α} {p q r : Progress} {a b : α}
    (h : x.Gives p a q) (h' : x.Gives p b r) : a = b ∧ q = r :=
  Prod.mk.inj (Except.ok.inj (h.symm.trans h'))

open Check

namespace Literal

variable {l : Literal} {scope : Scope} {span : Span} {c : Constant} {e : Typed} {p q : Progress}

end Literal

/-! ### Expressions -/

/-- An expression that is a literal, as it is written, or none at all. -/
def Typed.Natural (e : Typed) : Prop :=
  (∃ c span, c.Word ∧ e = Constant.typed span c) ∨ ∀ c, e.node ≠ .constant c

theorem Typed.natural_plain {n : Node} {t : Ty} {r : Range} {span : Span}
    (h : ∀ c, n ≠ .constant c) : (plain n t r span).Natural := .inr h

theorem Typed.natural_block {scope : Scope} {expected : Expected} {span : Span}
    {ss : List TypedStmt} {r : Option Typed} : (block scope expected span ss r).Natural := by
  rcases block_cases scope expected span ss r with ⟨_, -, hb⟩ | ⟨-, _, -, -, hb⟩ | ⟨-, -, hb⟩
  · exact hb ▸ natural_plain (by simp)
  · exact hb ▸ natural_plain (by simp)
  · exact hb ▸ natural_plain (by simp)

section Conversion

variable {R : StructRef → Prop} {scope : Scope} {limit : Weight} {t : Ty} {e e' : Typed}
  {r r' : Progress}

/-- What is built is taken for a value of another type only as a constant. -/
theorem Typed.Natural.adopt (h : e.Natural) (hf : t.isFlagged = false) (scope : Scope) :
    ∃ adopted, e.adopt scope t = .ok adopted ∧
      (adopted.isSome = true ↔ ∃ c, e.node = .constant c ∧ c.Adoptable t) := by
  rcases h with ⟨c, span, -, rfl⟩ | hnode
  · obtain ⟨adopted, ha, hiff⟩ :
        ∃ adopted, (c.typed span).adopt scope t = .ok adopted ∧
          (adopted.isSome = true ↔ c.Adoptable t) := Constant.adopt_typed hf
    refine ⟨adopted, ha, hiff.trans ?_⟩
    simp [Constant.node_typed]
  · refine ⟨none, ?_, by simpa using fun c hc => absurd hc (hnode c)⟩
    unfold Typed.adopt
    split
    · rfl
    · split
      · next hc => exact absurd hc (hnode _)
      · next hc => exact absurd hc (hnode _)
      · rfl

theorem Typed.Adopted.type_eq (h : Adopted scope t e e') : e'.type = t := by
  cases h with
  | @integer f n range hc _ _ _ | @null f range hc _ _ _ =>
    show Step.typeAfter t f.chain.steps = t
    rw [hc]
    rfl

namespace Constant

variable {c : Constant} {span : Span}

end Constant

end Conversion

/-! ### Statements -/

section Statements

variable {R : StructRef → Prop} {scope : Scope} {limit : Weight} {expected : Expected} {t : Ty}
  {name : String} {l : Literal} {e : Typed} {span callSpan nameSpan inner : Span} {p q : Progress}

end Statements

end Gauge
