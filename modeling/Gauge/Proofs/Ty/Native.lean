import Gauge.Proofs.Builtin
import Gauge.Proofs.Ty.Form

/-!
# Proofs — the types of a program

The types that a program can name are made of the builtin scalars, of pointers that all their users
share and of the structs it declares (`Ty.Native`).  Two such types are equal, as the checker
compares them, only if they are the same (`Structs.eq_of_compare`), so conversions between them meet
exactly and lead to types of the program again (`Builtin.casts_closed_native`).
-/

namespace Gauge

/-- A type made of builtin scalars, shared pointers and the structs of `K`. -/
def Ty.Native (K : StructRef → Prop) : Ty → Prop
  | .scalar _ c => .scalar .none c ∈ Builtin.all
  | .pointer _ stamp p => stamp = none ∧ p.Native K
  | .function _ _ _ _ _ => False
  | .struct _ r => K r

/-- Structs that are told apart by their number, and by their name as well. -/
def StructRef.Distinct (K : StructRef → Prop) : Prop :=
  ∀ a b, K a → K b → a.id = b.id ∨ a.name = b.name → a = b

namespace Ty

variable {K K' : StructRef → Prop} {t : Ty}

@[simp] theorem native_withFlags {f : Flags} : (t.withFlags f).Native K ↔ t.Native K := by
  cases t <;> exact Iff.rfl

theorem native_bare : t.bare.Native K ↔ t.Native K := native_withFlags

theorem native_pointerTo : (Ty.pointerTo t).Native K ↔ t.Native K :=
  ⟨fun h => h.2, fun h => ⟨rfl, h⟩⟩

theorem native_of_mem (h : t ∈ Builtin.all) : t.Native K := by
  obtain ⟨c, rfl, -⟩ := Builtin.scalar_of_mem h
  exact h

theorem native_void : Builtin.void.Native K := native_of_mem Builtin.void_mem

theorem native_bool : Builtin.bool.Native K :=
  native_of_mem (Builtin.mem_all_of_values Builtin.bool_mem)

theorem Native.mono (hK : ∀ r, K r → K' r) : ∀ {t : Ty}, t.Native K → t.Native K'
  | .scalar _ _, h => h
  | .pointer _ _ _, h => ⟨h.1, h.2.mono hK⟩
  | .struct _ r, h => hK r h

theorem eq_withFlags (t : Ty) {f : Flags} (h : t.flags = f) : t.withFlags f = t := by
  rw [← h, withFlags_flags]

theorem flags_eq_none (h : t.isFlagged = false) : t.flags = .none := by
  rw [isFlagged, isReference, isMutable, Bool.or_eq_false_iff] at h
  rcases hf : t.flags with ⟨r, m⟩
  rw [hf] at h
  obtain ⟨rfl, rfl⟩ := h
  rfl

theorem bare_eq_self (h : t.isFlagged = false) : t.bare = t := t.eq_withFlags (flags_eq_none h)

@[simp] theorem isFlagged_bare (t : Ty) : t.bare.isFlagged = false := by
  rw [isFlagged, isReference, isMutable, bare, flags_withFlags]
  rfl

theorem isReference_asReference (t : Ty) : t.asReference.isReference = true := by
  rw [isReference, asReference, flags_withFlags]

theorem isFlagged_of_mem (h : t ∈ Builtin.all) : t.isFlagged = false := by
  obtain ⟨c, rfl, -⟩ := Builtin.scalar_of_mem h
  rfl

/-- There is one `Void` among the values of a program. -/
theorem Native.eq_void (h : t.Native K) (hv : t.isVoid = true) (hf : t.isFlagged = false) :
    t = Builtin.void := by
  have unique : ∀ u ∈ Builtin.all, u.isVoid = true → u = Builtin.void := by decide
  cases t with
  | scalar f c =>
    have hf : f = .none := flags_eq_none hf
    subst hf
    exact unique _ h hv
  | pointer _ _ _ | function _ _ _ _ _ | struct _ _ => cases hv

theorem Native.eq_pointerTo {pointed : Ty} (h : t.Native K) (hp : t.pointed? = some pointed) :
    t.bare = .pointerTo pointed ∧ pointed.Native K := by
  cases t with
  | pointer f stamp p =>
    obtain ⟨rfl, h⟩ := h
    cases hp
    exact ⟨rfl, h⟩
  | scalar _ _ | function _ _ _ _ _ | struct _ _ => cases hp

end Ty

/-! ### Comparing -/

variable {K : StructRef → Prop}

theorem Builtin.eq_of_same {f : Flags} {a b : Scalar} (ha : Ty.scalar .none a ∈ all)
    (hb : Ty.scalar .none b ∈ all) (h : a.same b = true) : Ty.scalar f a = Ty.scalar f b := by
  have unique : ∀ t ∈ all, ∀ u ∈ all, (t.scalar?.any fun a => u.scalar?.any a.same) = true →
      t = u := by
    decide
  have := unique _ ha _ hb h
  cases this
  rfl

theorem Ty.Native.toOver : ∀ {t : Ty}, t.Native K → t.Over K
  | .scalar _ _, _ => trivial
  | .pointer _ _ _, h => h.2.toOver
  | .struct _ _, h => h

/-- No two structs of a program share a name, so none of them has to be looked into. -/
theorem StructRef.Distinct.tells (hK : Distinct K) (s : Structs) : s.Tells K where
  eq_of_id ha hb h := hK _ _ ha hb (.inl h)
  fingerprint ha hb h hne := absurd (hK _ _ ha hb (.inr h)) hne

namespace Structs

variable {s : Structs} (hK : StructRef.Distinct K)

include hK

/-- Types of a program are told apart by their forms. -/
theorem eq_of_form : ∀ {a b : Ty}, a.Native K → b.Native K → s.form a = s.form b → a = b
  | .scalar f a, .scalar g b, ha, hb, h => by
    injection h with hf hkind hsize halignment
    rw [hf]
    exact Builtin.eq_of_same ha hb (by simp [Scalar.same, hkind, hsize, halignment])
  | .pointer f _ a, .pointer g _ b, ⟨rfl, ha⟩, ⟨rfl, hb⟩, h => by
    injection h with hf hp
    rw [hf, eq_of_form ha hb hp]
  | .struct f a, .struct g b, ha, hb, h => by
    injection h with hf hname
    rw [hf, hK a b ha hb (.inr hname)]

/-- Types of a program can be compared. -/
theorem compare_native {a b : Ty} (ha : a.Native K) (hb : b.Native K) :
    ∃ c, (s.compare a b).outcome = .ok c ∧ (c = true ↔ a = b) := by
  obtain ⟨c, hc, hiff⟩ := compare_outcome (hK.tells s) ha.toOver hb.toOver
  refine ⟨c, hc, hiff.trans ⟨eq_of_form hK ha hb, ?_⟩⟩
  rintro rfl
  rfl

theorem eq_of_compare {a b : Ty} (ha : a.Native K) (hb : b.Native K)
    (h : (s.compare a b).outcome = .ok true) : a = b := by
  obtain ⟨c, hc, hiff⟩ := compare_native (s := s) hK ha hb
  cases hc.symm.trans h
  exact hiff.mp rfl

end Structs

/-- Conversions out of the types of a program start exactly where they are taken, and lead to types
of the program. -/
theorem Builtin.casts_closed_native (hK : StructRef.Distinct K) (s : Structs) :
    Builtin.casts.Closed s (Ty.Native K) id fun e => Builtin.casts.Offers s e.source e := by
  have source : ∀ {a : Ty} {e : Edge}, a.Native K → Builtin.casts.Offers s a e → e.source = a := by
    rintro a e ha (⟨g, hg, hc, he⟩ | ⟨f, -, hf⟩ | ⟨-, rfl⟩)
    · rw [((mem_castGroups hg).2 e he).2]
      have hg : g.source.Native K := Ty.native_of_mem (mem_all_of_values (mem_castGroups hg).1)
      exact (Structs.eq_of_compare hK ha hg hc).symm
    · obtain ⟨_, _, -, hs, -⟩ := CastFamily.edge?_cases hf
      exact hs
    · rfl
  refine ⟨fun ha hb h => Structs.eq_of_compare hK ha hb h, source, ?_, ?_⟩
  · intro a e ha ho
    rw [source ha ho]
    exact ho
  · rintro a e ha (⟨g, hg, -, he⟩ | ⟨f, hf, hfe⟩ | ⟨-, rfl⟩)
    · exact Ty.native_of_mem (mem_all_of_values ((mem_castGroups hg).2 e he).1.destination)
    · obtain ⟨_, p, rfl, -, ⟨-, hd⟩ | rfl⟩ := CastFamily.edge?_cases hfe
      · rw [hd]
        exact Ty.native_pointerTo.mpr (Ty.native_withFlags.mpr ha.2)
      · have hd : e.destination = bool := by simpa [casts] using hf
        rw [hd]
        exact Ty.native_bool
    · exact Ty.native_bare.mpr ha

end Gauge
