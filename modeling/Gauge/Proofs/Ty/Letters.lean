import Gauge.Proofs.Ty.Mangled
import Mathlib.Data.List.Forall2

/-!
# Proofs — types that have the same letters

The letters of a type say all that a comparison sees of it, as long as a struct is known by its
name: types have the same letters exactly if they are equal, and functions the same symbol exactly
if they have the same name and equal parameters (`mangled_exact`).  This is about all types,
function types and types that were made separately included.

The letters are read back from the left.  Sizes and names end where no digit follows, a pointer goes
on with the type behind it, and the parameters of a function go on up to an `E`, which no type
starts with.
-/

namespace Gauge

mutual

/-- A type made of builtin scalars, under whatever names, and of structs of `R`. -/
def Ty.Composed (R : StructRef → Prop) : Ty → Prop
  | .scalar _ c => ∃ b, Ty.scalar .none b ∈ Builtin.all ∧ c.same b = true
  | .pointer _ _ p => p.Composed R
  | .function _ _ _ r ps => r.Composed R ∧ Ty.AllComposed R ps
  | .struct _ r => R r

def Ty.AllComposed (R : StructRef → Prop) : List Ty → Prop
  | [] => True
  | t :: ts => t.Composed R ∧ Ty.AllComposed R ts

end

/-- A name tells which struct it is: structs of one name are equal, and a struct has one name. -/
structure Structs.Named (s : Structs) (R : StructRef → Prop) : Prop where
  same : ∀ {a b : StructRef}, R a → R b → a.name = b.name →
    (s.compareStructs a b).outcome = .ok true
  name_eq : ∀ {a b : StructRef}, R a → R b → a.id = b.id → a.name = b.name

namespace Structs.Named

variable {s : Structs} {R : StructRef → Prop}

/-- Structs of one name that are compared to the end have fingerprints. -/
theorem tells (h : s.Named R) : s.Tells R where
  eq_of_id := by
    rintro ⟨i, x⟩ ⟨j, y⟩ ha hb hid
    obtain rfl : x = y := h.name_eq ha hb hid
    obtain rfl : i = j := hid
    rfl
  fingerprint := by
    intro a b ha hb hname hne
    have hid : a.id ≠ b.id := by
      intro hid
      obtain ⟨i, x⟩ := a
      obtain ⟨j, y⟩ := b
      obtain rfl : x = y := hname
      obtain rfl : i = j := hid
      exact hne rfl
    have same := h.same ha hb hname
    rw [compareStructs, if_neg hid, if_pos hname] at same
    obtain ⟨marks, taken, -⟩ := Traced.bind_ok.mp same
    unfold takeFingerprint at taken
    split at taken
    · next hf => exact ⟨_, hf⟩
    · cases taken

theorem marksOf_eq (h : s.Named R) {a b : StructRef} (ha : R a) (hb : R b)
    (hname : a.name = b.name) :
    s.marksOf a = s.marksOf b := by
  obtain ⟨c, hc, hiff⟩ := compareStructs_outcome h.tells ha hb
  cases hc.symm.trans (h.same ha hb hname)
  exact (hiff.mp rfl).2

end Structs.Named

/-- The structs of a program have different names. -/
theorem StructRef.Distinct.named {K : StructRef → Prop} (hK : Distinct K) (s : Structs) :
    s.Named K where
  same := by
    intro a b ha hb hname
    obtain rfl := hK a b ha hb (.inr hname)
    rw [Structs.compareStructs, if_pos rfl]
    rfl
  name_eq ha hb hid := by rw [hK _ _ ha hb (.inl hid)]

namespace Ty

variable {s : Structs} {R : StructRef → Prop}

mutual

theorem Composed.over : ∀ {t : Ty}, t.Composed R → t.Over R
  | .scalar _ _, _ => trivial
  | .pointer _ _ p, h => Composed.over (t := p) h
  | .function _ _ _ _ _, h => ⟨Composed.over h.1, AllComposed.over h.2⟩
  | .struct _ _, h => h

theorem AllComposed.over : ∀ {ts : List Ty}, Ty.AllComposed R ts → Ty.AllOver R ts
  | [], _ => trivial
  | _ :: _, h => ⟨Composed.over h.1, AllComposed.over h.2⟩

end

theorem Native.composed : ∀ {t : Ty}, t.Native R → t.Composed R
  | .scalar _ c, h => ⟨c, h, by simp [Scalar.same]⟩
  | .pointer _ _ p, h => Native.composed (t := p) h.2
  | .struct _ _, h => h

/-! ### Equal types have the same letters -/

mutual

theorem mangled_of_form : ∀ {a b : Ty}, s.form a = s.form b → a.mangled = b.mangled
  | .scalar f a, .scalar g b, h => by
    injection h with hf hk hn hm
    rw [mangled, mangled, scalarLetters, scalarLetters, hf, hk, hn]
  | .pointer f _ a, .pointer g _ b, h => by
    injection h with hf hp
    rw [mangled, mangled, hf, mangled_of_form hp]
  | .function f _ _ r ps, .function g _ _ q qs, h => by
    injection h with hf hr hp
    rw [mangled, mangled, hf, mangled_of_form hr, mangledAll_of_forms hp]
  | .struct f a, .struct g b, h => by
    injection h with hf hn hm
    rw [mangled, mangled, hf, hn]

theorem mangledAll_of_forms : ∀ {as bs : List Ty}, s.forms as = s.forms bs →
    mangledAll as = mangledAll bs
  | [], [], _ => rfl
  | a :: as, b :: bs, h => by
    injection h with ha has
    rw [mangledAll, mangledAll, mangled_of_form ha, mangledAll_of_forms has]

end

/-! ### Types that have the same letters are equal -/

theorem shapeLetters_of_same {f g : Flags} {a b : Scalar} (h : a.same b = true) :
    (Ty.scalar f a).shapeLetters = (Ty.scalar g b).shapeLetters := by
  simp only [Scalar.same, Bool.and_eq_true, beq_iff_eq] at h
  simp only [shapeLetters, h.1.1, h.1.2]

/-- The letter of a scalar's shape is no other shape's. -/
theorem letter_scalar (f : Flags) (c : Scalar) :
    (Ty.scalar f c).shapeLetters.1 ∈ ['V', 'B', 'C', 'U', 'I'] := by
  unfold shapeLetters
  dsimp only
  split <;> simp

theorem not_scalar {f : Flags} {c : Scalar} {t : Ty}
    (h : (Ty.scalar f c).shapeLetters.1 = t.shapeLetters.1)
    (ht : t.shapeLetters.1 ∈ ['P', 'F', 'T']) : False := by
  have hc := letter_scalar f c
  rw [h] at hc
  simp only [List.mem_cons, List.not_mem_nil, or_false] at hc ht
  rcases ht with ht | ht | ht <;> simp [ht] at hc

/-- No type starts with the letter that ends the parameters of a function. -/
theorem mangled_ne_end (t : Ty) (cs ds : List Char) : t.mangled.toList ++ cs ≠ 'E' :: ds := by
  have letter : t.shapeLetters.1 ≠ 'E' := by
    unfold shapeLetters
    split
    · split <;> simp
    all_goals simp
  rw [mangled_eq]
  obtain ⟨_ | _, _ | _⟩ := t.flags <;> simp [flagLetters, letter]

theorem endsNumber_row (ts : List Ty) (cs : List Char) :
    EndsNumber ((mangledAll ts).toList ++ 'E' :: cs) :=
  endsNumber_append (endsNumber_mangledAll ts) (show EndsNumber ('E' :: cs) from rfl)

mutual

/-- The letters of a type tell where they end, and what a comparison sees of the type. -/
theorem form_append_inj (hR : s.Named R) (hn : ∀ r, R r → Spelled r.name) :
    ∀ {a b : Ty} {cs ds : List Char}, a.Composed R → b.Composed R → EndsNumber cs → EndsNumber ds →
      a.mangled.toList ++ cs = b.mangled.toList ++ ds → s.form a = s.form b ∧ cs = ds
  | .scalar f a, b, cs, ds, ha, hb, hc, hd, h => by
    obtain ⟨hf, hl, h⟩ := shape_append_inj h
    cases b with
    | scalar g b =>
      obtain ⟨a', ha', hsa⟩ := ha
      obtain ⟨b', hb', hsb⟩ := hb
      rw [shapeLetters_of_same (g := f) hsa, shapeLetters_of_same (g := g) hsb] at hl h
      obtain ⟨rfl, hrest⟩ := scalar_append_inj ha' hb' hl h
      simp only [Scalar.same, Bool.and_eq_true, beq_iff_eq] at hsa hsb
      refine ⟨?_, hrest⟩
      rw [Structs.form, Structs.form, show f = g from hf, hsa.1.1, hsa.1.2, hsa.2, hsb.1.1,
        hsb.1.2, hsb.2]
    | _ => exact (not_scalar hl (by simp [shapeLetters])).elim
  | .pointer f _ p, b, cs, ds, ha, hb, hc, hd, h => by
    obtain ⟨hf, hl, h⟩ := shape_append_inj h
    cases b with
    | pointer g _ q =>
      obtain ⟨hp, hrest⟩ := form_append_inj hR hn (a := p) (b := q) ha hb hc hd h
      exact ⟨by rw [Structs.form, Structs.form, show f = g from hf, hp], hrest⟩
    | scalar g b => exact (not_scalar hl.symm (by simp [shapeLetters])).elim
    | _ => cases hl
  | .function f _ _ r ps, b, cs, ds, ha, hb, hc, hd, h => by
    obtain ⟨hf, hl, h⟩ := shape_append_inj h
    cases b with
    | function g _ _ q qs =>
      simp only [shapeLetters, List.append_assoc, List.singleton_append] at h
      obtain ⟨hr, h⟩ :=
        form_append_inj hR hn ha.1 hb.1 (endsNumber_row ps cs) (endsNumber_row qs ds) h
      obtain ⟨hps, hrest⟩ := forms_append_inj hR hn ha.2 hb.2 h
      exact ⟨by rw [Structs.form, Structs.form, show f = g from hf, hr, hps], hrest⟩
    | scalar g b => exact (not_scalar hl.symm (by simp [shapeLetters])).elim
    | _ => cases hl
  | .struct f a, b, cs, ds, ha, hb, hc, hd, h => by
    obtain ⟨hf, hl, h⟩ := shape_append_inj h
    cases b with
    | struct g b =>
      obtain ⟨hname, hrest⟩ := counted_append_inj (endsNumber_append (hn a ha) hc)
        (endsNumber_append (hn b hb) hd) h
      refine ⟨?_, hrest⟩
      rw [Structs.form, Structs.form, show f = g from hf, hname, hR.marksOf_eq ha hb hname]
    | scalar g b => exact (not_scalar hl.symm (by simp [shapeLetters])).elim
    | _ => cases hl

/-- So do those of a row of types that an `E` follows. -/
theorem forms_append_inj (hR : s.Named R) (hn : ∀ r, R r → Spelled r.name) :
    ∀ {as bs : List Ty} {cs ds : List Char}, Ty.AllComposed R as → Ty.AllComposed R bs →
      (mangledAll as).toList ++ 'E' :: cs = (mangledAll bs).toList ++ 'E' :: ds →
      s.forms as = s.forms bs ∧ cs = ds
  | [], [], _, _, _, _, h => ⟨rfl, (List.cons.inj h).2⟩
  | a :: as, b :: bs, cs, ds, ha, hb, h => by
    simp only [mangledAll, String.toList_append, List.append_assoc] at h
    obtain ⟨hform, h⟩ :=
      form_append_inj hR hn ha.1 hb.1 (endsNumber_row as cs) (endsNumber_row bs ds) h
    obtain ⟨hforms, hrest⟩ := forms_append_inj hR hn ha.2 hb.2 h
    exact ⟨by rw [Structs.forms, Structs.forms, hform, hforms], hrest⟩
  | [], b :: bs, cs, ds, _, _, h => by
    simp only [mangledAll, String.toList_append, List.append_assoc] at h
    exact (mangled_ne_end b _ _ h.symm).elim
  | a :: as, [], cs, ds, _, _, h => by
    simp only [mangledAll, String.toList_append, List.append_assoc] at h
    exact (mangled_ne_end a _ _ h).elim

end

theorem mangled_eq_iff (hR : s.Named R) (hn : ∀ r, R r → Spelled r.name)
    {a b : Ty} (ha : a.Composed R)
    (hb : b.Composed R) : a.mangled = b.mangled ↔ s.form a = s.form b := by
  refine ⟨fun h => ?_, mangled_of_form⟩
  have ends : EndsNumber [] := rfl
  have letters : a.mangled.toList ++ [] = b.mangled.toList ++ [] := by rw [h]
  exact (form_append_inj hR hn ha hb ends ends letters).1

theorem mangledAll_eq_iff (hR : s.Named R) (hn : ∀ r, R r → Spelled r.name) {as bs : List Ty}
    (ha : Ty.AllComposed R as) (hb : Ty.AllComposed R bs) :
    mangledAll as = mangledAll bs ↔ s.forms as = s.forms bs := by
  refine ⟨fun h => ?_, mangledAll_of_forms⟩
  have letters : (mangledAll as).toList ++ ['E'] = (mangledAll bs).toList ++ ['E'] := by rw [h]
  exact (forms_append_inj hR hn ha hb letters).1

theorem AllComposed.of_native : ∀ {ts : List Ty}, (∀ t ∈ ts, t.Native R) → AllComposed R ts
  | [], _ => trivial
  | _ :: _, h => ⟨(h _ (.head _)).composed, of_native fun t ht => h t (.tail _ ht)⟩

theorem eq_of_forms (hR : StructRef.Distinct R) : ∀ {as bs : List Ty}, (∀ a ∈ as, a.Native R) →
    (∀ b ∈ bs, b.Native R) → s.forms as = s.forms bs → as = bs
  | [], [], _, _, _ => rfl
  | a :: as, b :: bs, ha, hb, h => by
    injection h with h hs
    rw [Structs.eq_of_form hR (ha a (.head _)) (hb b (.head _)) h,
      eq_of_forms hR (fun t ht => ha t (.tail _ ht)) (fun t ht => hb t (.tail _ ht)) hs]

end Ty

/-- Functions of a program that are not foreign are linked by different names, unless both their
names and their parameters are the same. -/
theorem Signature.symbol_inj {K : StructRef → Prop} (hK : StructRef.Distinct K)
    (hn : ∀ r, K r → Spelled r.name) {a b : Signature} {x y : String} (hx : Spelled x)
    (hy : Spelled y) (ha : ∀ t ∈ a.parameters, t.Native K) (hb : ∀ t ∈ b.parameters, t.Native K)
    (h : a.symbol x .native = b.symbol y .native) : x = y ∧ a.parameters = b.parameters := by
  obtain ⟨hname, hps⟩ := (symbol_eq_iff hx hy).mp h
  have forms := (Ty.mangledAll_eq_iff (hK.named .empty) hn (.of_native ha) (.of_native hb)).mp hps
  exact ⟨hname, Ty.eq_of_forms hK ha hb forms⟩

/-! ### Comparisons -/

section Compare

variable {s : Structs} {R : StructRef → Prop}

theorem Structs.forms_eq_iff (hR : s.Tells R) : ∀ {as bs : List Ty}, Ty.AllOver R as →
    Ty.AllOver R bs →
    (s.forms as = s.forms bs ↔ List.Forall₂ (fun a b => (s.compare a b).outcome = .ok true) as bs)
  | [], bs, _, _ => by cases bs <;> simp [forms]
  | a :: as, [], _, _ => by simp [forms]
  | a :: as, b :: bs, ha, hb => by
    rw [forms, forms, List.cons.injEq, List.forall₂_cons, compare_eq_true_iff hR ha.1 hb.1,
      forms_eq_iff hR ha.2 hb.2]

/-- **The letters of a type say what it is.**  Where a name tells which struct it is, types made of
builtin scalars and of structs, through pointers and functions and with any flags, have the same
letters exactly if they are equal; and functions that are not foreign have the same symbol exactly
if their names are the same and their parameters are equal one by one. -/
theorem mangled_exact (hR : s.Named R) (hn : ∀ r, R r → Spelled r.name) :
    (∀ {a b : Ty}, a.Composed R → b.Composed R →
      (s.compare a b).outcome = .ok (decide (a.mangled = b.mangled))) ∧
    ∀ {g h : Signature} {x y : String}, Spelled x → Spelled y → Ty.AllComposed R g.parameters →
      Ty.AllComposed R h.parameters →
      (g.symbol x .native = h.symbol y .native ↔
        x = y ∧ List.Forall₂ (fun a b => (s.compare a b).outcome = .ok true) g.parameters
          h.parameters) := by
  constructor
  · intro a b ha hb
    obtain ⟨c, hc, hiff⟩ := Structs.compare_outcome hR.tells ha.over hb.over
    rw [hc, Except.ok.injEq, Bool.eq_iff_iff, decide_eq_true_iff, hiff,
      Ty.mangled_eq_iff hR hn ha hb]
  · intro g h x y hx hy hg hh
    rw [Signature.symbol_eq_iff hx hy, Ty.mangledAll_eq_iff hR hn hg hh,
      Structs.forms_eq_iff hR.tells hg.over hh.over]

end Compare

/-- A struct `A` that was made twice, and a struct `A1`. -/
def StructRef.copies : List StructRef := [⟨0, "A"⟩, ⟨1, "A"⟩, ⟨2, "A1"⟩]

/-- A table in which they all have one member. -/
def Structs.copies : Structs :=
  ⟨StructRef.copies.map fun r => ⟨r.name, some ⟨[⟨"x", Builtin.u8, 0⟩], 1, 1⟩, none⟩⟩

theorem Structs.copies_named : copies.Named (· ∈ StructRef.copies) := by
  have told : ∀ a ∈ StructRef.copies, ∀ b ∈ StructRef.copies,
      (a.name = b.name → (copies.compareStructs a b).outcome.toOption.map id = some true) ∧
        (a.id = b.id → a.name = b.name) := by
    decide +kernel
  refine ⟨fun ha hb hname => ?_, fun ha hb => (told _ ha _ hb).2⟩
  obtain ⟨c, hc, rfl⟩ := eq_ok_of_map ((told _ ha _ hb).1 hname)
  exact hc

/-- Functions of a function without parameters and of a number, and of a function of a number:
`FBFBEU1E` and `FBFBU1EE` are different types.  Pointers to the two structs `A` were made apart, and
are equal; so they give a function `f` the one symbol `_P1fPMT1A`. -/
theorem mangled_exact_functions :
    let named (i : Nat) : Ty := .pointer .none (some i) (.struct ⟨false, true⟩ ⟨i, "A"⟩)
    let of (ps : List Ty) : Ty := .function .none none none Builtin.bool ps
    (Structs.copies.compare (of [of [], Builtin.u8]) (of [of [Builtin.u8]])).outcome = .ok false ∧
      (Structs.copies.compare (named 0) (named 1)).outcome = .ok true ∧
      Signature.symbol ⟨none, Builtin.void, [named 0]⟩ "f" .native =
        Signature.symbol ⟨none, Builtin.bool, [named 1]⟩ "f" .native := by
  intro named of
  have bool : Builtin.bool.Composed (· ∈ StructRef.copies) := Ty.native_bool.composed
  have u8 : Builtin.u8.Composed (· ∈ StructRef.copies) := (Ty.native_of_mem (by decide)).composed
  have different : (of [of [], Builtin.u8]).Composed (· ∈ StructRef.copies) ∧
      (of [of [Builtin.u8]]).Composed (· ∈ StructRef.copies) ∧
      (of [of [], Builtin.u8]).mangled ≠ (of [of [Builtin.u8]]).mangled :=
    ⟨⟨bool, ⟨bool, trivial⟩, u8, trivial⟩, ⟨bool, ⟨bool, u8, trivial⟩, trivial⟩, by decide +kernel⟩
  have equal : (named 0).Composed (· ∈ StructRef.copies) ∧
    (named 1).Composed (· ∈ StructRef.copies) ∧
      (named 0).mangled = (named 1).mangled :=
    ⟨.head _, .tail _ (.head _), by decide +kernel⟩
  obtain ⟨types, symbols⟩ := mangled_exact Structs.copies_named
    (show ∀ r ∈ StructRef.copies, Spelled r.name by decide)
  have compared : (Structs.copies.compare (named 0) (named 1)).outcome = .ok true := by
    rw [types equal.1 equal.2.1, decide_eq_true equal.2.2]
  refine ⟨?_, compared, ?_⟩
  · rw [types different.1 different.2.1, decide_eq_false different.2.2]
  · refine (symbols (g := ⟨none, Builtin.void, [named 0]⟩) (h := ⟨none, Builtin.bool, [named 1]⟩)
      (x := "f")
      (y := "f") (by decide) (by decide) ⟨equal.1, trivial⟩ ⟨equal.2.1, trivial⟩).mpr ⟨rfl, ?_⟩
    exact .cons compared .nil

end Gauge
