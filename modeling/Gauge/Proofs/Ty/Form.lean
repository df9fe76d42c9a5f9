import Gauge.Proofs.Success

/-!
# Proofs — what comparisons see of a type

Types are equal up to the names and the stamps of their parts, and structs up to their fingerprints.
`Structs.form` forgets everything else, so that types are equal exactly when their forms are
(`Structs.compare_outcome`), as long as the structs in them can be told apart at all: comparing two
structs of one name needs the members of both (`Structs.Tells`).
-/

namespace Gauge

/-- A type as comparisons see it.  A struct is known by its name and its fingerprint, and one that
has no fingerprint by its number. -/
inductive Form where
  | scalar (flags : Flags) (kind : ScalarKind) (size alignment : UInt32)
  | pointer (flags : Flags) (pointed : Form)
  | function (flags : Flags) (result : Form) (parameters : List Form)
  | struct (flags : Flags) (name : String) (marks : Except Nat (List Mark))

namespace Form

def withFlags (f : Flags) : Form → Form
  | .scalar _ k n m => .scalar f k n m
  | .pointer _ p => .pointer f p
  | .function _ r ps => .function f r ps
  | .struct _ n ms => .struct f n ms

def flags : Form → Flags
  | .scalar f _ _ _ | .pointer f _ | .function f _ _ | .struct f _ _ => f

end Form

namespace Structs

/-- What tells a struct from others of its name. -/
def marksOf (s : Structs) (r : StructRef) : Except Nat (List Mark) :=
  (s.fingerprint r).mapError fun _ => r.id

mutual

def form (s : Structs) : Ty → Form
  | .scalar f c => .scalar f c.kind c.size c.alignment
  | .pointer f _ p => .pointer f (s.form p)
  | .function f _ _ r ps => .function f (s.form r) (s.forms ps)
  | .struct f r => .struct f r.name (s.marksOf r)

def forms (s : Structs) : List Ty → List Form
  | [] => []
  | t :: ts => s.form t :: s.forms ts

end

variable {s : Structs}

@[simp] theorem flags_form (s : Structs) (t : Ty) : (s.form t).flags = t.flags := by
  cases t <;> rfl

@[simp] theorem form_withFlags (s : Structs) (f : Flags) (t : Ty) :
    s.form (t.withFlags f) = (s.form t).withFlags f := by
  cases t <;> rfl

theorem flags_eq_of_form {a b : Ty} (h : s.form a = s.form b) : a.flags = b.flags := by
  rw [← s.flags_form a, h, s.flags_form]

theorem isFlagged_eq_of_form {a b : Ty} (h : s.form a = s.form b) : a.isFlagged = b.isFlagged := by
  simp only [Ty.isFlagged, Ty.isReference, Ty.isMutable, flags_eq_of_form h]

theorem form_bare_eq {a b : Ty} (h : s.form a = s.form b) : s.form a.bare = s.form b.bare := by
  simp only [Ty.bare, form_withFlags, h]

mutual

/-- Types of one form look the same. -/
theorem alike_of_form : ∀ {a b : Ty}, s.form a = s.form b → a.alike b = true
  | .scalar f a, .scalar g b, h => by
    injection h with hf hk hn hm
    simp [Ty.alike, Scalar.same, hf, hk, hn, hm]
  | .pointer f _ a, .pointer g _ b, h => by
    injection h with hf hp
    simp [Ty.alike, hf, alike_of_form hp]
  | .function f _ _ r ps, .function g _ _ q qs, h => by
    injection h with hf hr hp
    simp [Ty.alike, hf, alike_of_form hr, alikeAll_of_forms hp]
  | .struct f a, .struct g b, h => by
    injection h with hf hn hm
    simp [Ty.alike, hf, hn]

theorem alikeAll_of_forms :
    ∀ {as bs : List Ty}, s.forms as = s.forms bs → Ty.alikeAll as bs = true
  | [], [], _ => rfl
  | a :: as, b :: bs, h => by
    injection h with ha has
    simp [Ty.alikeAll, alike_of_form ha, alikeAll_of_forms has]

end

theorem length_forms (s : Structs) (ts : List Ty) : (s.forms ts).length = ts.length := by
  induction ts with
  | nil => rfl
  | cons t ts ih => rw [forms, List.length_cons, List.length_cons, ih]

end Structs

/-! ### Structs that can be told apart -/

mutual

/-- All structs in the type are in `R`. -/
def Ty.Over (R : StructRef → Prop) : Ty → Prop
  | .scalar _ _ => True
  | .pointer _ _ p => p.Over R
  | .function _ _ _ r ps => r.Over R ∧ Ty.AllOver R ps
  | .struct _ r => R r

def Ty.AllOver (R : StructRef → Prop) : List Ty → Prop
  | [] => True
  | t :: ts => t.Over R ∧ Ty.AllOver R ts

end

@[simp] theorem Ty.over_withFlags {R : StructRef → Prop} {f : Flags} {t : Ty} :
    (t.withFlags f).Over R ↔ t.Over R := by
  cases t <;> simp only [Ty.withFlags, Ty.Over]

namespace Structs

/-- The structs of `R` can be told apart: their numbers do so, and where two of them share their
name both have a fingerprint. -/
structure Tells (s : Structs) (R : StructRef → Prop) : Prop where
  eq_of_id : ∀ {a b : StructRef}, R a → R b → a.id = b.id → a = b
  fingerprint : ∀ {a b : StructRef}, R a → R b → a.name = b.name → a ≠ b →
    ∃ marks, s.fingerprint a = .ok marks

/-- Two structs of one name, neither of which has its members: they cannot be told apart. -/
def twins : Structs := ⟨[⟨"A", none, none⟩, ⟨"A", none, none⟩]⟩

variable {s : Structs} {R : StructRef → Prop}

/-- Structs are compared by their names and fingerprints. -/
theorem compareStructs_outcome (hR : s.Tells R) {a b : StructRef} (ha : R a) (hb : R b) :
    ∃ c, (s.compareStructs a b).outcome = .ok c ∧
      (c = true ↔ a.name = b.name ∧ s.marksOf a = s.marksOf b) := by
  by_cases hab : a = b
  · subst hab
    exact ⟨true, by rw [compareStructs_self]; rfl, by simp⟩
  have hid : a.id ≠ b.id := fun h => hab (hR.eq_of_id ha hb h)
  by_cases hn : a.name = b.name
  · obtain ⟨x, hx⟩ := hR.fingerprint ha hb hn hab
    obtain ⟨y, hy⟩ := hR.fingerprint hb ha hn.symm (Ne.symm hab)
    refine ⟨decide (x = y), ?_, ?_⟩
    · simp only [compareStructs, if_neg hid, if_pos hn, takeFingerprint, hx, hy]
      rfl
    · have marks : s.marksOf a = s.marksOf b ↔ x = y := by
        rw [marksOf, marksOf, hx, hy]
        exact ⟨fun h => Except.ok.inj h, fun h => congrArg Except.ok h⟩
      rw [marks, decide_eq_true_iff]
      exact ⟨fun h => ⟨hn, h⟩, fun h => h.2⟩
  · refine ⟨false, ?_, by simp [hn]⟩
    simp only [compareStructs, if_neg hid, if_neg hn]
    rfl

mutual

/-- **Comparing is comparing forms.** -/
theorem compare_outcome (hR : s.Tells R) : ∀ {a b : Ty}, a.Over R → b.Over R →
    ∃ c, (s.compare a b).outcome = .ok c ∧ (c = true ↔ s.form a = s.form b)
  | .scalar f a, .scalar g b, _, _ => by
    refine ⟨_, rfl, ?_⟩
    simp only [Scalar.same, form, Bool.and_eq_true, beq_iff_eq, Form.scalar.injEq, and_assoc]
  | .pointer f _ a, .pointer g _ b, ha, hb => by
    rw [compare]
    split
    · next hf =>
      obtain ⟨c, hc, hiff⟩ := compare_outcome hR (a := a) (b := b) ha hb
      refine ⟨c, hc, hiff.trans ?_⟩
      simp only [form, Form.pointer.injEq, hf, true_and]
    · next hf => exact ⟨false, rfl, by simp [form, hf]⟩
  | .function f _ _ r ps, .function g _ _ q qs, ha, hb => by
    rw [compare]
    split
    · next hf =>
      obtain ⟨c, hc, hiff⟩ := compare_outcome hR (a := r) (b := q) ha.1 hb.1
      cases c with
      | false =>
        have hr : s.form r ≠ s.form q := fun h => nomatch hiff.mpr h
        exact ⟨false, Traced.bind_ok.mpr ⟨false, hc, rfl⟩, by simp [form, hr]⟩
      | true =>
        have hr := hiff.mp rfl
        by_cases hl : ps.length = qs.length
        · obtain ⟨d, hd, hiff'⟩ := compareAll_outcome hR ha.2 hb.2 hl
          refine ⟨d, Traced.bind_ok.mpr ⟨true, hc, ?_⟩, ?_⟩
          · simpa [hl] using hd
          · simp only [hiff', form, Form.function.injEq, hf, hr, true_and]
        · have hforms : s.forms ps ≠ s.forms qs := fun h => hl (by
            rw [← s.length_forms ps, h, s.length_forms])
          refine ⟨false, Traced.bind_ok.mpr ⟨true, hc, ?_⟩, by simp [form, hforms]⟩
          simp [hl]
    · next hf => exact ⟨false, rfl, by simp [form, hf]⟩
  | .struct f a, .struct g b, ha, hb => by
    rw [compare]
    split
    · next hf =>
      obtain ⟨c, hc, hiff⟩ := compareStructs_outcome hR ha hb
      refine ⟨c, hc, hiff.trans ?_⟩
      simp only [form, Form.struct.injEq, hf, true_and]
    · next hf => exact ⟨false, rfl, by simp [form, hf]⟩
  | .scalar _ _, .pointer _ _ _, _, _ | .scalar _ _, .function _ _ _ _ _, _, _
  | .scalar _ _, .struct _ _, _, _ | .pointer _ _ _, .scalar _ _, _, _
  | .pointer _ _ _, .function _ _ _ _ _, _, _ | .pointer _ _ _, .struct _ _, _, _
  | .function _ _ _ _ _, .scalar _ _, _, _ | .function _ _ _ _ _, .pointer _ _ _, _, _
  | .function _ _ _ _ _, .struct _ _, _, _ | .struct _ _, .scalar _ _, _, _
  | .struct _ _, .pointer _ _ _, _, _ | .struct _ _, .function _ _ _ _ _, _, _ => by
    exact ⟨false, rfl, by simp [form]⟩

/-- So is comparing lists of one length. -/
theorem compareAll_outcome (hR : s.Tells R) : ∀ {as bs : List Ty}, Ty.AllOver R as →
    Ty.AllOver R bs → as.length = bs.length →
    ∃ c, (s.compareAll as bs).outcome = .ok c ∧ (c = true ↔ s.forms as = s.forms bs)
  | [], [], _, _, _ => ⟨true, rfl, by simp⟩
  | a :: as, b :: bs, ha, hb, hl => by
    obtain ⟨c, hc, hiff⟩ := compare_outcome hR (a := a) (b := b) ha.1 hb.1
    cases c with
    | false =>
      have hab : s.form a ≠ s.form b := fun h => nomatch hiff.mpr h
      exact ⟨false, Traced.bind_ok.mpr ⟨false, hc, rfl⟩, by simp [forms, hab]⟩
    | true =>
      obtain ⟨d, hd, hiff'⟩ := compareAll_outcome hR ha.2 hb.2 (Nat.succ.inj hl)
      refine ⟨d, Traced.bind_ok.mpr ⟨true, hc, hd⟩, ?_⟩
      simp only [hiff', forms, List.cons.injEq, hiff.mp rfl, true_and]

end

/-- Types are equal exactly if they have one form. -/
theorem compare_eq_true_iff (hR : s.Tells R) {a b : Ty} (ha : a.Over R) (hb : b.Over R) :
    (s.compare a b).outcome = .ok true ↔ s.form a = s.form b := by
  obtain ⟨c, hc, hiff⟩ := compare_outcome hR ha hb
  rw [hc, Except.ok.injEq]
  exact hiff

theorem compareAlike_outcome (hR : s.Tells R) {a b : Ty} (ha : a.Over R) (hb : b.Over R) :
    ∃ c, (s.compareAlike a b).outcome = .ok c ∧ (c = true ↔ s.form a = s.form b) := by
  rw [compareAlike]
  split
  · exact compare_outcome hR ha hb
  · next h => exact ⟨false, rfl, by simpa using fun hf => h (alike_of_form hf)⟩

end Structs

end Gauge
