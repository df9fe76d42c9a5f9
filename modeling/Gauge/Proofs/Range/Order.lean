import Gauge.Proofs.Range.Member

/-!
# Proofs — ranges inside ranges

`Range.Within` orders the ranges of a type: intervals and sets of booleans by inclusion, pointers
and structs part by part.  The opaque range of a struct, of which nothing is known, lies above all
others.  A range holds what the ranges within it hold (`Range.Within.holds`), and its bounds reach
at least as far (`Range.Within.bounds`).
-/

namespace Gauge

/-- Every boolean of the one set is in the other. -/
def Bools.Within (x y : Bools) : Prop :=
  (x.falses = true → y.falses = true) ∧ (x.trues = true → y.trues = true)

theorem Bools.within_refl (x : Bools) : x.Within x := ⟨id, id⟩

theorem Bools.within_any (x : Bools) : x.Within .any := ⟨fun _ => rfl, fun _ => rfl⟩

theorem Bools.within_iff {x y : Bools} :
    x.Within y ↔ ∀ v, x.Holds (truth v) → y.Holds (truth v) := by
  simp [Within, Bool.forall_bool, holds_truth]

namespace Range

mutual

/-- The one range lies inside the other. -/
def Within : Range → Range → Prop
  | .unsigned a b, .unsigned c d | .signed a b, .signed c d => c ≤ a ∧ b ≤ d
  | .bools x, .bools y => x.Within y
  | .pointer p x, .pointer q y => p.Within q ∧ x.Within y
  | .array as, .array bs => bs = [] ∨ WithinAll as bs
  | .void, .void => True
  | _, _ => False

/-- The ranges of one list lie inside those of another, one by one. -/
def WithinAll : List Range → List Range → Prop
  | [], [] => True
  | a :: as, b :: bs => a.Within b ∧ WithinAll as bs
  | _, _ => False

end

mutual

theorem within_refl : ∀ r : Range, r.Within r
  | .unsigned _ _ => ⟨le_rfl, le_rfl⟩
  | .signed _ _ => ⟨Int.le_refl _, Int.le_refl _⟩
  | .bools x => x.within_refl
  | .pointer p x => ⟨within_refl p, x.within_refl⟩
  | .array rs => .inr (withinAll_refl rs)
  | .void => trivial

theorem withinAll_refl : ∀ rs : List Range, WithinAll rs rs
  | [] => trivial
  | r :: rs => ⟨within_refl r, withinAll_refl rs⟩

end

variable {a b : Range} {lo' hi' v : Int}

/-- A range within another has bounds if that has some, and they are inside. -/
theorem Within.bounds (h : a.Within b) (hb : b.bounds? = some (lo', hi')) :
    ∃ lo hi, a.bounds? = some (lo, hi) ∧ lo' ≤ lo ∧ hi ≤ hi' := by
  cases b with
  | unsigned c d =>
    cases hb
    cases a with
    | unsigned a b => exact ⟨a, b, rfl, Int.ofNat_le.mpr h.1, Int.ofNat_le.mpr h.2⟩
    | _ => exact h.elim
  | signed c d =>
    cases hb
    cases a with
    | signed a b => exact ⟨a, b, rfl, h⟩
    | _ => exact h.elim
  | bools y =>
    cases hb
    cases a with
    | bools x =>
      obtain ⟨f, t⟩ := x
      obtain ⟨f', t'⟩ := y
      refine ⟨_, _, rfl, ?_⟩
      cases f <;> cases t <;> cases f' <;> cases t' <;> simp [Within, Bools.Within] at h ⊢
    | _ => exact h.elim
  | pointer _ _ | array _ | void => cases hb

theorem Within.holds (h : a.Within b) (hv : a.Holds v) : b.Holds v := by
  cases a with
  | unsigned _ _ =>
    cases b with
    | unsigned _ _ => exact ⟨(Int.ofNat_le.mpr h.1).trans hv.1, hv.2.trans (Int.ofNat_le.mpr h.2)⟩
    | _ => exact h.elim
  | signed _ _ =>
    cases b with
    | signed _ _ => exact ⟨h.1.trans hv.1, hv.2.trans h.2⟩
    | _ => exact h.elim
  | bools x =>
    cases b with
    | bools y => exact hv.imp (And.imp_right h.1) (And.imp_right h.2)
    | _ => exact h.elim
  | pointer _ _ | array _ | void => exact hv.elim

/-- Ranges are only compared with ranges of their kind. -/
theorem Within.kind (h : a.Within b) :
    a.bools?.isSome = b.bools?.isSome ∧ a.bounds?.isSome = b.bounds?.isSome := by
  cases a <;> cases b <;> first | exact ⟨rfl, rfl⟩ | exact h.elim

theorem Within.not (h : a.Within b) : a.not.Within b.not := by
  cases a with
  | bools x =>
    cases b with
    | bools y => exact h.symm
    | _ => exact h.elim
  | _ =>
    cases b with
    | bools _ => exact h.elim
    | _ => exact within_refl _

end Range

end Gauge
