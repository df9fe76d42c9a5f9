import Gauge.Proofs.Numeral
import Gauge.Proofs.Syntax.Names
import Gauge.Proofs.Text.Run
import Gauge.Proofs.Ty.Native

/-!
# Proofs — types in letters

What the letters of a type are made of: flags, a letter for the shape and what is written behind it.
A size or the length of a name ends where no digit follows, and the length tells how much of what
follows is the name (`counted_append_inj`).  So the symbol of a function tells its name, if that
starts with no digit (`Signature.symbol_eq_iff`); a name that does would be taken for a part of its
own length.
-/

namespace Gauge

variable {cs ds : List Char}

/-! ### Numbers and names -/

/-- Text that does not go on a number before it. -/
def EndsNumber (cs : List Char) : Prop := cs.head?.all (!isDecimal ·) = true

theorem endsNumber_append (hc : EndsNumber cs) (hd : EndsNumber ds) : EndsNumber (cs ++ ds) := by
  cases cs with
  | nil => exact hd
  | cons c cs => exact hc

/-- A number is the longest row of digits. -/
theorem takeWhile_number (n : Nat) {cs : List Char} (h : EndsNumber cs) :
    ((toString n).toList ++ cs).takeWhile Char.isDigit = (toString n).toList :=
  takeWhile_append_of_stop (fun _ => isDigit_of_mem_toString) h

theorem number_append_inj {n m : Nat} (hc : EndsNumber cs) (hd : EndsNumber ds)
    (h : (toString n).toList ++ cs = (toString m).toList ++ ds) : n = m ∧ cs = ds := by
  have digits : (toString n).toList = (toString m).toList := by
    rw [← takeWhile_number n hc, h, takeWhile_number m hd]
  refine ⟨?_, List.append_cancel_left (digits ▸ h)⟩
  rw [← ofDigitChars_toString n, digits, ofDigitChars_toString]

/-- A text that starts like another one, and is as wide, is the same. -/
theorem width_append_inj {cs ds xs ys : List Char} (hw : width cs = width ds)
    (h : cs ++ xs = ds ++ ys) : cs = ds ∧ xs = ys := by
  have longer : ∀ {cs ds zs : List Char}, width cs = width ds → ds = cs ++ zs → zs = [] := by
    rintro cs _ zs hw rfl
    cases zs with
    | nil => rfl
    | cons z zs =>
      rw [width_append, width_cons] at hw
      have := z.utf8Size_pos
      omega
  rcases List.append_eq_append_iff.mp h with ⟨zs, hds, hxs⟩ | ⟨zs, hcs, hys⟩
  · obtain rfl := longer hw hds
    simp_all
  · obtain rfl := longer hw.symm hcs
    simp_all

theorem counted_append_inj {a b : String} (ha : EndsNumber (a.toList ++ cs))
    (hb : EndsNumber (b.toList ++ ds))
    (h : (Ty.counted a).toList ++ cs = (Ty.counted b).toList ++ ds) : a = b ∧ cs = ds := by
  simp only [Ty.counted, String.toList_append, List.append_assoc] at h
  obtain ⟨hw, h⟩ := number_append_inj ha hb h
  obtain ⟨hn, h⟩ := width_append_inj hw h
  exact ⟨String.toList_inj.mp hn, h⟩

namespace Ty

/-! ### Flags and shapes -/

/-- The letter of a type's shape, and what is written behind it. -/
def shapeLetters : Ty → Char × List Char
  | .scalar _ c => match c.kind with
    | .void => ('V', [])
    | .bool => ('B', [])
    | .char => ('C', (toString c.size.toNat).toList)
    | .unsignedInt => ('U', (toString c.size.toNat).toList)
    | .signedInt => ('I', (toString c.size.toNat).toList)
  | .pointer _ _ p => ('P', p.mangled.toList)
  | .function _ _ _ r ps => ('F', r.mangled.toList ++ (mangledAll ps).toList ++ ['E'])
  | .struct _ r => ('T', (counted r.name).toList)

theorem mangled_eq (t : Ty) :
    t.mangled.toList = (flagLetters t.flags).toList ++ t.shapeLetters.1 :: t.shapeLetters.2 := by
  cases t with
  | scalar f c =>
    cases hk : c.kind <;> simp [mangled, scalarLetters, shapeLetters, flags, hk]
  | pointer f _ p | function f _ _ r ps | struct f r => simp [mangled, shapeLetters, flags]

/-- No shape has a letter of the flags, and none is a digit. -/
theorem shape_letter (t : Ty) :
    t.shapeLetters.1 ≠ 'R' ∧ t.shapeLetters.1 ≠ 'M' ∧ isDecimal t.shapeLetters.1 = false := by
  unfold shapeLetters
  split
  · split <;> exact ⟨by simp, by simp, rfl⟩
  all_goals exact ⟨by simp, by simp, rfl⟩

theorem flagLetters_append_inj {f g : Flags} {c d : Char}
    (hc : c ≠ 'R' ∧ c ≠ 'M') (hd : d ≠ 'R' ∧ d ≠ 'M')
    (h : (flagLetters f).toList ++ c :: cs = (flagLetters g).toList ++ d :: ds) :
    f = g ∧ c = d ∧ cs = ds := by
  obtain ⟨_ | _, _ | _⟩ := f <;> obtain ⟨_ | _, _ | _⟩ := g <;>
    simp_all [flagLetters, eq_comm]

theorem shape_append_inj {a b : Ty} (h : a.mangled.toList ++ cs = b.mangled.toList ++ ds) :
    a.flags = b.flags ∧ a.shapeLetters.1 = b.shapeLetters.1 ∧
      a.shapeLetters.2 ++ cs = b.shapeLetters.2 ++ ds := by
  rw [mangled_eq, mangled_eq, List.append_assoc, List.append_assoc] at h
  exact flagLetters_append_inj ⟨a.shape_letter.1, a.shape_letter.2.1⟩
    ⟨b.shape_letter.1, b.shape_letter.2.1⟩ h

theorem endsNumber_mangled (t : Ty) (cs : List Char) : EndsNumber (t.mangled.toList ++ cs) := by
  have digit := t.shape_letter.2.2
  rw [mangled_eq]
  obtain ⟨_ | _, _ | _⟩ := t.flags <;> simp [EndsNumber, flagLetters, digit] <;> decide

theorem endsNumber_mangledAll (ts : List Ty) : EndsNumber (mangledAll ts).toList := by
  cases ts with
  | nil => rfl
  | cons t ts =>
    rw [mangledAll, String.toList_append]
    exact endsNumber_mangled t _

/-- The letter of a builtin scalar tells how many digits there are. -/
theorem scalar_append_inj {f g : Flags} {a b : Scalar}
    (ha : Ty.scalar .none a ∈ Builtin.all) (hb : Ty.scalar .none b ∈ Builtin.all)
    (hl : (Ty.scalar f a).shapeLetters.1 = (Ty.scalar g b).shapeLetters.1)
    (h : (Ty.scalar f a).shapeLetters.2 ++ cs = (Ty.scalar g b).shapeLetters.2 ++ ds) :
    a = b ∧ cs = ds := by
  have told : ∀ t ∈ Builtin.all, ∀ u ∈ Builtin.all, t.shapeLetters.1 = u.shapeLetters.1 →
      t.shapeLetters.2.length = u.shapeLetters.2.length ∧
        (t.shapeLetters.2 = u.shapeLetters.2 → t = u) := by
    decide +kernel
  obtain ⟨hlength, same⟩ := told _ ha _ hb hl
  obtain ⟨hsize, hrest⟩ := List.append_inj h hlength
  cases same hsize
  exact ⟨rfl, hrest⟩

end Ty

/-- The symbol of a function that is not foreign says what its name and its parameters are. -/
theorem Signature.symbol_eq_iff {g h : Signature} {x y : String} (hx : Spelled x) (hy : Spelled y) :
    g.symbol x .native = h.symbol y .native ↔
      x = y ∧ Ty.mangledAll g.parameters = Ty.mangledAll h.parameters := by
  constructor
  · intro heq
    have heq := congrArg String.toList heq
    simp only [symbol, String.toList_append, List.append_assoc] at heq
    obtain ⟨hname, hps⟩ := counted_append_inj (endsNumber_append hx (Ty.endsNumber_mangledAll _))
      (endsNumber_append hy (Ty.endsNumber_mangledAll _)) (List.append_cancel_left heq)
    exact ⟨hname, String.toList_inj.mp hps⟩
  · rintro ⟨hname, hps⟩
    rw [symbol, symbol, hname, hps]

end Gauge
