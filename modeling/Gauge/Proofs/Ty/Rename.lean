import Mathlib.Logic.Equiv.Defs
import Gauge.Proofs.Success

/-!
# Proofs — other numbers for structs and functions

Structs and functions are numbered in the order they are declared in, and a `Renaming` gives them
other numbers.  A type with other numbers is written with the same letters and has the same flags
and bounds.  In a table whose entries have moved to their new numbers (`Structs.Renamed`) it is laid
out in the same way, has the same values and the same fingerprint, and is equal to the same types
as before (`Structs.Renamed.compare`).
-/

namespace Gauge

/-- Other numbers for structs and functions. -/
structure Renaming where
  struct : Equiv.Perm Nat
  function : Equiv.Perm Nat

variable (ρ : Renaming)

/-! ### Types -/

def StructRef.rename (r : StructRef) : StructRef := ⟨ρ.struct r.id, r.name⟩

@[simp] theorem StructRef.name_rename (r : StructRef) : (r.rename ρ).name = r.name := rfl

mutual

/-- The type with other numbers for its structs. -/
def Ty.rename : Ty → Ty
  | .scalar f c => .scalar f c
  | .pointer f stamp p => .pointer f stamp p.rename
  | .function f stamp n r ps => .function f stamp n r.rename (Ty.renameAll ps)
  | .struct f r => .struct f (r.rename ρ)

def Ty.renameAll : List Ty → List Ty
  | [] => []
  | t :: ts => t.rename :: Ty.renameAll ts

end

namespace Ty

variable {ρ}

theorem renameAll_eq_map (ts : List Ty) : renameAll ρ ts = ts.map (rename ρ) := by
  induction ts with
  | nil => rfl
  | cons t ts ih => rw [renameAll, ih, List.map_cons]

@[simp] theorem flags_rename (t : Ty) : (t.rename ρ).flags = t.flags := by cases t <;> rfl

@[simp] theorem withFlags_rename (f : Flags) (t : Ty) :
    (t.rename ρ).withFlags f = (t.withFlags f).rename ρ := by
  cases t <;> rfl

@[simp] theorem bare_rename (t : Ty) : (t.rename ρ).bare = t.bare.rename ρ := withFlags_rename _ t

@[simp] theorem asReference_rename (t : Ty) :
    (t.rename ρ).asReference = t.asReference.rename ρ := by
  simp [asReference]

@[simp] theorem asMutable_rename (t : Ty) : (t.rename ρ).asMutable = t.asMutable.rename ρ := by
  simp [asMutable]

@[simp] theorem notReference_rename (t : Ty) :
    (t.rename ρ).notReference = t.notReference.rename ρ := by
  simp [notReference]

@[simp] theorem notMutable_rename (t : Ty) : (t.rename ρ).notMutable = t.notMutable.rename ρ := by
  simp [notMutable]

@[simp] theorem rename_pointerTo (t : Ty) : (pointerTo t).rename ρ = pointerTo (t.rename ρ) := rfl

@[simp] theorem isReference_rename (t : Ty) : (t.rename ρ).isReference = t.isReference := by
  simp [isReference]

@[simp] theorem isMutable_rename (t : Ty) : (t.rename ρ).isMutable = t.isMutable := by
  simp [isMutable]

@[simp] theorem isFlagged_rename (t : Ty) : (t.rename ρ).isFlagged = t.isFlagged := by
  simp [isFlagged]

@[simp] theorem scalar?_rename (t : Ty) : (t.rename ρ).scalar? = t.scalar? := by cases t <;> rfl

@[simp] theorem pointed?_rename (t : Ty) : (t.rename ρ).pointed? = t.pointed?.map (rename ρ) := by
  cases t <;> rfl

@[simp] theorem isPointer_rename (t : Ty) : (t.rename ρ).isPointer = t.isPointer := by
  simp [isPointer]

@[simp] theorem hasKind_rename (k : ScalarKind) (t : Ty) :
    (t.rename ρ).hasKind k = t.hasKind k := by
  simp [hasKind]

@[simp] theorem isVoid_rename (t : Ty) : (t.rename ρ).isVoid = t.isVoid := hasKind_rename _ t

@[simp] theorem isBool_rename (t : Ty) : (t.rename ρ).isBool = t.isBool := hasKind_rename _ t

@[simp] theorem isSigned_rename (t : Ty) : (t.rename ρ).isSigned = t.isSigned := hasKind_rename _ t

@[simp] theorem isInteger_rename (t : Ty) : (t.rename ρ).isInteger = t.isInteger := by
  simp [isInteger]

@[simp] theorem bounds?_rename (t : Ty) : (t.rename ρ).bounds? = t.bounds? := by
  simp [bounds?]

/-- A scalar has no number in it. -/
theorem rename_of_scalar {t : Ty} (h : t.scalar?.isSome = true) : t.rename ρ = t := by
  cases t with
  | scalar _ _ => rfl
  | pointer _ _ _ | function _ _ _ _ _ | struct _ _ => cases h

mutual

/-- Numbers that are given back are the numbers from before. -/
theorem rename_rename_symm : ∀ t : Ty, (t.rename ρ).rename ⟨ρ.struct.symm, ρ.function.symm⟩ = t
  | .scalar _ _ => rfl
  | .pointer _ _ p => by simp only [rename, rename_rename_symm p]
  | .function _ _ _ r ps => by simp only [rename, rename_rename_symm r, renameAll_renameAll_symm ps]
  | .struct _ _ => by simp only [rename, StructRef.rename, Equiv.symm_apply_apply]

theorem renameAll_renameAll_symm : ∀ ts : List Ty,
    renameAll ⟨ρ.struct.symm, ρ.function.symm⟩ (renameAll ρ ts) = ts
  | [] => rfl
  | t :: ts => by simp only [renameAll, rename_rename_symm t, renameAll_renameAll_symm ts]

end

theorem rename_injective : Function.Injective (rename ρ) :=
  Function.LeftInverse.injective rename_rename_symm

mutual

@[simp] theorem text_rename : ∀ t : Ty, (t.rename ρ).text = t.text
  | .scalar _ _ => rfl
  | .pointer _ _ p => by simp only [rename, text, text_rename p]
  | .function _ _ _ r ps => by simp only [rename, text, text_rename r, texts_renameAll ps]
  | .struct _ _ => rfl

theorem texts_renameAll : ∀ ts : List Ty, texts (renameAll ρ ts) = texts ts
  | [] => rfl
  | t :: ts => by simp only [renameAll, texts, text_rename t, texts_renameAll ts]

end

mutual

@[simp] theorem mangled_rename : ∀ t : Ty, (t.rename ρ).mangled = t.mangled
  | .scalar _ _ => rfl
  | .pointer _ _ p => by simp only [rename, mangled, mangled_rename p]
  | .function _ _ _ r ps => by
    simp only [rename, mangled, mangled_rename r, mangledAll_renameAll ps]
  | .struct _ _ => rfl

theorem mangledAll_renameAll : ∀ ts : List Ty, mangledAll (renameAll ρ ts) = mangledAll ts
  | [] => rfl
  | t :: ts => by simp only [renameAll, mangledAll, mangled_rename t, mangledAll_renameAll ts]

end

mutual

theorem alike_rename : ∀ a b : Ty, (a.rename ρ).alike (b.rename ρ) = a.alike b
  | .scalar _ _, b | .struct _ _, b => by
    cases b <;> simp only [rename, alike, StructRef.name_rename]
  | .pointer _ _ a, b => by
    cases b with
    | pointer _ _ b => simp only [rename, alike, alike_rename a b]
    | _ => simp only [rename, alike]
  | .function _ _ _ r ps, b => by
    cases b with
    | function _ _ _ q qs => simp only [rename, alike, alike_rename r q, alikeAll_renameAll ps qs]
    | _ => simp only [rename, alike]

theorem alikeAll_renameAll : ∀ as bs : List Ty, alikeAll (renameAll ρ as) (renameAll ρ bs) =
    alikeAll as bs
  | [], [] | [], _ :: _ | _ :: _, [] => by simp only [renameAll, alikeAll]
  | a :: as, b :: bs => by
    simp only [renameAll, alikeAll, alike_rename a b, alikeAll_renameAll as bs]

end

end Ty

/-! ### Tables of structs -/

def Member.rename (m : Member) : Member := ⟨m.name, m.type.rename ρ, m.offset⟩

def Layout.rename (l : Layout) : Layout := ⟨l.members.map (Member.rename ρ), l.size, l.alignment⟩

def StructEntry.rename (e : StructEntry) : StructEntry :=
  ⟨e.name, e.layout.map (Layout.rename ρ), e.fingerprint⟩

/-- The table `s'` has the entries of `s`, under their other numbers. -/
structure Structs.Renamed (s s' : Structs) : Prop where
  length : s'.entries.length = s.entries.length
  entry : ∀ i, s'.entries[ρ.struct i]? = s.entries[i]?.map (StructEntry.rename ρ)

/-- Work on a renamed input comes out the same, up to a change of what it gives. -/
theorem Traced.map_bind {ε α α' β β' : Type} {x : Traced ε α} {x' : Traced ε α'} {f : α → α'}
    {k : α → Traced ε β} {k' : α' → Traced ε β'} {g : β → β'} (hx : x'.outcome = x.outcome.map f)
    (hk : ∀ a, x.outcome = .ok a → (k' (f a)).outcome = (k a).outcome.map g) :
    (x' >>= k').outcome = (x >>= k).outcome.map g := by
  rw [outcome_bind, outcome_bind, hx]
  cases hxa : x.outcome with
  | error e => rfl
  | ok a => exact hk a hxa

theorem Traced.map_bind_congr {ε α β β' : Type} {x x' : Traced ε α} {k : α → Traced ε β}
    {k' : α → Traced ε β'} {g : β → β'} (hx : x'.outcome = x.outcome)
    (hk : ∀ a, (k' a).outcome = (k a).outcome.map g) :
    (x' >>= k').outcome = (x >>= k).outcome.map g := by
  refine map_bind (f := id) ?_ fun a _ => hk a
  rw [hx]
  cases x.outcome <;> rfl

theorem Traced.bind_congr {ε α β : Type} {x x' : Traced ε α} {k k' : α → Traced ε β}
    (hx : x'.outcome = x.outcome) (hk : ∀ a, (k' a).outcome = (k a).outcome) :
    (x' >>= k').outcome = (x >>= k).outcome := by
  rw [outcome_bind, outcome_bind, hx]
  exact congrArg _ (funext hk)

namespace Structs.Renamed

variable {ρ} {s s' : Structs} (h : Renamed ρ s s')

include h

theorem layout? (r : StructRef) : s'.layout? (r.rename ρ) =
    (s.layout? r).map (Layout.rename ρ) := by
  rw [Structs.layout?, Structs.layout?, entry?, entry?, StructRef.rename, h.entry]
  cases s.entries[r.id]? <;> rfl

theorem layout (r : StructRef) : s'.layout (r.rename ρ) = (s.layout r).map (Layout.rename ρ) := by
  rw [Structs.layout, Structs.layout, h.layout?]
  cases s.layout? r <;> rfl

theorem size (t : Ty) : s'.size (t.rename ρ) = s.size t := by
  cases t with
  | struct f r =>
    show (s'.layout (r.rename ρ)).map _ = (s.layout r).map _
    rw [h.layout]
    cases s.layout r <;> rfl
  | _ => rfl

/-! ### Ranges -/

omit h in
theorem rangeWith {f f' : StructRef → Range} (hf : ∀ r : StructRef, f' (r.rename ρ) = f r) :
    ∀ t : Ty, (t.rename ρ).rangeWith f' = t.rangeWith f
  | .scalar _ _ => rfl
  | .pointer _ _ p => by rw [Ty.rename, Ty.rangeWith, Ty.rangeWith, rangeWith hf p]
  | .function _ _ _ _ _ => rfl
  | .struct _ r => hf r

/-- The whole range of a struct does not depend on its number. -/
theorem structRange : ∀ (n : Nat) (outer : List String) (r : StructRef),
    s'.structRange n outer (r.rename ρ) = s.structRange n outer r
  | 0, _, _ => rfl
  | n + 1, outer, r => by
    have inner : ∀ m : Member, ((m.rename ρ).type.rangeWith (s'.structRange n (r.name :: outer))) =
        m.type.rangeWith (s.structRange n (r.name :: outer)) := fun m =>
      rangeWith (structRange n (r.name :: outer)) m.type
    rw [Structs.structRange, Structs.structRange, h.layout?]
    show (if outer.contains r.name then _ else _) = _
    split
    · rfl
    · cases s.layout? r with
      | none => rfl
      | some l =>
        simp only [Option.map_some, Layout.rename, List.map_map, Function.comp_def,
          StructRef.name_rename, inner]

theorem rangeOf (t : Ty) : s'.rangeOf (t.rename ρ) = s.rangeOf t := by
  rw [Structs.rangeOf, Structs.rangeOf, h.length]
  exact rangeWith (h.structRange _ _) t

theorem nullRange (t : Ty) : s'.nullRange (t.rename ρ) = s.nullRange t := by
  rw [Structs.nullRange, Structs.nullRange, Ty.pointed?_rename, Ty.text_rename]
  cases t.pointed? with
  | none => rfl
  | some p => simp only [Option.map_some, h.rangeOf]

/-! ### Comparing -/

omit h in
mutual

theorem marks {f f' : StructRef → Except Fault (List Mark)}
    (hf : ∀ r : StructRef, f' (r.rename ρ) = f r) : ∀ t : Ty, (t.rename ρ).marks f' = t.marks f
  | .scalar _ _ => rfl
  | .pointer _ _ p => by rw [Ty.rename, Ty.marks, Ty.marks, marks hf p]
  | .function _ _ _ r ps => by rw [Ty.rename, Ty.marks, Ty.marks, marks hf r, marksAll hf ps]
  | .struct _ r => by rw [Ty.rename, Ty.marks, Ty.marks, hf r]

theorem marksAll {f f' : StructRef → Except Fault (List Mark)}
    (hf : ∀ r : StructRef, f' (r.rename ρ) = f r) :
    ∀ ts : List Ty, Ty.marksAll f' (Ty.renameAll ρ ts) = Ty.marksAll f ts
  | [] => rfl
  | t :: ts => by rw [Ty.renameAll, Ty.marksAll, Ty.marksAll, marks hf t, marksAll hf ts]

end

/-- A struct that is met again is as far away as before. -/
theorem structMarks : ∀ (n : Nat) (outer : List Nat) (r : StructRef),
    s'.structMarks n (outer.map ρ.struct) (r.rename ρ) = s.structMarks n outer r
  | 0, _, _ => rfl
  | n + 1, outer, r => by
    have again : (outer.map ρ.struct).findIdx? (· = (r.rename ρ).id) =
        outer.findIdx? (· = r.id) := by
      rw [List.findIdx?_map]
      congr 1
      funext i
      simp [StructRef.rename]
    have inner : ∀ t : Ty, (t.rename ρ).marks
      (s'.structMarks n ((r.rename ρ).id :: outer.map ρ.struct)) =
        t.marks (s.structMarks n (r.id :: outer)) :=
      marks (structMarks n (r.id :: outer))
    rw [Structs.structMarks, Structs.structMarks, again, h.layout]
    split
    · rfl
    · cases s.layout r with
      | error e => rfl
      | ok l =>
        simp only [Except.map, ok_bind, Layout.rename, List.mapM_map, Function.comp_def,
          Member.rename,
          inner, List.length_map, StructRef.name_rename]

theorem fingerprint (r : StructRef) : s'.fingerprint (r.rename ρ) = s.fingerprint r := by
  have taken : (s'.entry? (r.rename ρ)).bind (·.fingerprint) =
      (s.entry? r).bind (·.fingerprint) := by
    rw [StructRef.rename, entry?, entry?, h.entry]
    cases s.entries[r.id]? <;> rfl
  rw [Structs.fingerprint, Structs.fingerprint, taken, h.length]
  split
  · rfl
  · exact h.structMarks _ [] r

/-- Structs are equal under other numbers if they were before. -/
theorem compareStructs (a b : StructRef) :
    (s'.compareStructs (a.rename ρ) (b.rename ρ)).outcome = (s.compareStructs a b).outcome := by
  have take : ∀ r : StructRef, (s'.takeFingerprint (r.rename ρ)).outcome =
      (s.takeFingerprint r).outcome := by
    intro r
    rw [takeFingerprint, takeFingerprint, h.fingerprint]
    cases s.fingerprint r <;> rfl
  have same : (a.rename ρ).id = (b.rename ρ).id ↔ a.id = b.id := ρ.struct.injective.eq_iff
  unfold Structs.compareStructs
  by_cases hid : a.id = b.id
  · rw [if_pos (same.mpr hid), if_pos hid]
  · rw [if_neg (mt same.mp hid), if_neg hid]
    by_cases hname : a.name = b.name
    · rw [if_pos hname, if_pos (show (a.rename ρ).name = (b.rename ρ).name from hname)]
      exact Traced.bind_congr (take a) fun x => Traced.bind_congr (take b) fun y => rfl
    · rw [if_neg hname, if_neg (show ¬ (a.rename ρ).name = (b.rename ρ).name from hname)]

omit h

mutual

/-- Types are equal under other numbers exactly if they were before. -/
theorem compare (h : Renamed ρ s s') : ∀ a b : Ty, (s'.compare (a.rename ρ) (b.rename ρ)).outcome =
    (s.compare a b).outcome
  | .scalar _ _, b => by cases b <;> simp only [Ty.rename, Structs.compare]
  | .pointer f _ a, b => by
    cases b with
    | pointer g _ b =>
      simp only [Ty.rename, Structs.compare]
      split
      · exact compare h a b
      · rfl
    | _ => simp only [Ty.rename, Structs.compare]
  | .function f _ _ r ps, b => by
    cases b with
    | function g _ _ q qs =>
      have lengths : ∀ ts : List Ty, (Ty.renameAll ρ ts).length = ts.length := by
        intro ts
        rw [Ty.renameAll_eq_map, List.length_map]
      simp only [Ty.rename, Structs.compare, lengths]
      split
      · refine Traced.bind_congr (compare h r q) fun same => ?_
        cases same with
        | false => simp
        | true =>
          by_cases hl : ps.length = qs.length
          · simpa [hl] using compareAll h ps qs
          · simp [hl]
      · rfl
    | _ => simp only [Ty.rename, Structs.compare]
  | .struct f a, b => by
    cases b with
    | struct g b =>
      simp only [Ty.rename, Structs.compare]
      split
      · exact h.compareStructs a b
      · rfl
    | _ => simp only [Ty.rename, Structs.compare]

theorem compareAll (h : Renamed ρ s s') : ∀ as bs : List Ty,
    (s'.compareAll (Ty.renameAll ρ as) (Ty.renameAll ρ bs)).outcome = (s.compareAll as bs).outcome
  | [], [] => rfl
  | [], _ :: _ | _ :: _, [] => by
    rw [Ty.renameAll, Ty.renameAll, Structs.compareAll, Structs.compareAll] <;> simp
  | a :: as, b :: bs => by
    rw [Ty.renameAll, Ty.renameAll, Structs.compareAll, Structs.compareAll]
    refine Traced.bind_congr (compare h a b) fun same => ?_
    cases same with
    | false => simp
    | true => simpa using compareAll h as bs

end

theorem compareAlike (h : Renamed ρ s s') (a b : Ty) :
    (s'.compareAlike (a.rename ρ) (b.rename ρ)).outcome = (s.compareAlike a b).outcome := by
  rw [Structs.compareAlike, Structs.compareAlike, Ty.alike_rename]
  split
  · exact h.compare a b
  · rfl

end Structs.Renamed

end Gauge
