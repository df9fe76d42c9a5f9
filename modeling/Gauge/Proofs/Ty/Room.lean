import Mathlib.Order.Bounds.Basic
import Gauge.Proofs.Safe

/-!
# Proofs — the room that a struct takes

A `Room` is what a value takes, in numbers of any size.  `Room.ofMembers` adds rooms up in the way a
struct is laid out.  Since nothing that is added makes a struct smaller, a layout in 32 bits
succeeds exactly if the room of the whole fits, and then takes this room (`Structs.lay_fits`).
-/

namespace Gauge

/-- The bytes that something takes, and what its offsets are to be multiples of. -/
structure Room where
  size : Nat
  alignment : Nat
deriving DecidableEq

/-- The least multiple of `alignment` that is not below `offset`. -/
def roundUp (offset alignment : Nat) : Nat := (offset + alignment - 1) / alignment * alignment

theorem roundUp_isLeast {alignment : Nat} (h : 0 < alignment) (offset : Nat) :
    IsLeast {o | alignment ∣ o ∧ offset ≤ o} (roundUp offset alignment) := by
  have hdiv := Nat.div_add_mod (offset + alignment - 1) alignment
  have hmod := Nat.mod_lt (offset + alignment - 1) h
  rw [Nat.mul_comm] at hdiv
  refine ⟨⟨Nat.dvd_mul_left .., by unfold roundUp; omega⟩, ?_⟩
  rintro o ⟨⟨k, rfl⟩, ho⟩
  rw [roundUp, Nat.mul_comm alignment]
  refine Nat.mul_le_mul_right _ (Nat.lt_succ_iff.mp ((Nat.div_lt_iff_lt_mul h).mpr ?_))
  rw [Nat.succ_mul, Nat.mul_comm]
  omega

theorem le_roundUp {alignment : Nat} (h : 0 < alignment) (offset : Nat) :
    offset ≤ roundUp offset alignment := (roundUp_isLeast h offset).1.2

namespace Room

/-- The alignment that a member asks for, which is at least one. -/
def own (r : Room) : Nat := max r.alignment 1

theorem own_pos (r : Room) : 0 < r.own := Nat.le_max_right ..

/-- The end of members that are placed from `offset` on. -/
def stop (offset : Nat) : List Room → Nat
  | [] => offset
  | r :: rs => stop (roundUp offset r.own + r.size) rs

/-- The largest alignment of members, if it is more than `alignment`. -/
def strictest (alignment : Nat) : List Room → Nat
  | [] => alignment
  | r :: rs => strictest (max alignment r.own) rs

/-- Members of the given rooms in their places, from `offset` on. -/
def place (offset : Nat) : List (String × Ty) → List Room → List Member
  | (name, type) :: ms, r :: rs =>
    ⟨name, type, .ofNat (roundUp offset r.own)⟩ :: place (roundUp offset r.own + r.size) ms rs
  | _, _ => []

/-- The room of a struct with the given members. -/
def ofMembers (rs : List Room) : Room := ⟨roundUp (stop 0 rs) (strictest 1 rs), strictest 1 rs⟩

theorem le_stop (offset : Nat) (rs : List Room) : offset ≤ stop offset rs := by
  induction rs generalizing offset with
  | nil => exact le_rfl
  | cons r rs ih =>
    exact (le_roundUp r.own_pos offset).trans ((Nat.le_add_right _ _).trans (ih _))

/-- The largest alignment is that of a member, or the one that was asked for at least. -/
theorem strictest_isGreatest (alignment : Nat) (rs : List Room) :
    IsGreatest {a | a = alignment ∨ ∃ r ∈ rs, r.own = a} (strictest alignment rs) := by
  induction rs generalizing alignment with
  | nil => simp [IsGreatest, upperBounds, strictest]
  | cons r rs ih =>
    obtain ⟨mem, upper⟩ := ih (max alignment r.own)
    rw [strictest]
    constructor
    · rcases mem with h | ⟨q, hq, h⟩
      · rw [h]
        rcases Nat.le_total r.own alignment with h | h
        · exact .inl (Nat.max_eq_left h)
        · exact .inr ⟨r, .head _, (Nat.max_eq_right h).symm⟩
      · exact .inr ⟨q, .tail _ hq, h⟩
    · rintro a (rfl | ⟨q, hq, rfl⟩)
      · exact (le_max_left _ _).trans (upper (.inl rfl))
      · rcases List.mem_cons.mp hq with rfl | hq
        · exact (le_max_right _ _).trans (upper (.inl rfl))
        · exact upper (.inr ⟨q, hq, rfl⟩)

theorem strictest_pos (rs : List Room) : 0 < strictest 1 rs :=
  (strictest_isGreatest 1 rs).2 (.inl rfl)

end Room

/-! ### Sizes that fit -/

section Fits

variable {α β : Type} {P Q : α → Prop} {R : β → Prop} {x : Except Fault α} {n m : Nat}

/-- The step succeeds exactly if the number has 32 bits, and otherwise it is an overflow. -/
def Fits (n : Nat) (P : α → Prop) (x : Except Fault α) : Prop :=
  (n < UInt32.size ∧ ∃ a, x = .ok a ∧ P a) ∨ UInt32.size ≤ n ∧ ∃ f, f.IsOverflow ∧ x = .error f

/-- Of steps one after the other the last one needs the most. -/
theorem Fits.bind {f : α → Except Fault β} (hx : Fits n P x) (hn : n ≤ m)
    (hf : ∀ a, P a → Fits m R (f a)) : Fits m R (x >>= f) := by
  rcases hx with ⟨-, a, rfl, ha⟩ | ⟨hlt, f, hf, rfl⟩
  · exact hf a ha
  · exact .inr ⟨hlt.trans hn, f, hf, rfl⟩

theorem Fits.ok_of_lt (h : Fits n P x) (hn : n < UInt32.size) : ∃ a, x = .ok a ∧ P a := by
  rcases h with ⟨-, h⟩ | ⟨hle, -⟩
  · exact h
  · exact absurd hn (Nat.not_lt.mpr hle)

theorem Fits.of_ok {a : α} (h : Fits n P x) (hx : x = .ok a) : n < UInt32.size ∧ P a := by
  rcases h with ⟨hlt, b, hb, hP⟩ | ⟨-, f, -, hf⟩
  · cases hx.symm.trans hb
    exact ⟨hlt, hP⟩
  · cases hx.symm.trans hf

end Fits

theorem toNat_max (a b : UInt32) : (max a b).toNat = max a.toNat b.toNat := by
  show (if a ≤ b then b else a).toNat = _
  rw [Nat.max_def, apply_ite UInt32.toNat]
  rfl

theorem addSizes_fits (a b : UInt32) :
    Fits (a.toNat + b.toNat) (fun c => c.toNat = a.toNat + b.toNat) (addSizes a b) := by
  unfold addSizes
  split
  · next h => exact .inl ⟨h, _, rfl, (UInt32.toNat_add a b).trans (Nat.mod_eq_of_lt h)⟩
  · next h => exact .inr ⟨Nat.not_lt.mp h, _, .inl rfl, rfl⟩

/-- Division that rounds up, in 32 bits, is exact. -/
theorem divideUp_toNat (a : UInt32) {b : UInt32} (hb : 0 < b.toNat) :
    (divideUp a b).toNat = (a.toNat + b.toNat - 1) / b.toNat := by
  have ha := a.toNat_lt
  have hdiv := Nat.div_add_mod a.toNat b.toNat
  have hmod := Nat.mod_lt a.toNat hb
  unfold divideUp
  split
  · next h =>
    have h : a.toNat % b.toNat = 0 := congrArg UInt32.toNat h
    rw [UInt32.toNat_div]
    refine (Nat.div_eq_of_lt_le ?_ ?_).symm
    · rw [Nat.mul_comm]
      omega
    · rw [Nat.succ_mul, Nat.mul_comm]
      omega
  · next h =>
    have h : ¬ a.toNat % b.toNat = 0 := fun hz => h (UInt32.toNat_inj.mp hz)
    -- the divisor is at least two, so the quotient can be counted up
    have two : 2 ≤ b.toNat := by
      by_contra hlt
      obtain hone : b.toNat = 1 := by omega
      rw [hone, Nat.mod_one] at h
      exact h rfl
    have half : a.toNat / b.toNat ≤ a.toNat / 2 := Nat.div_le_div_left two (by decide)
    rw [UInt32.toNat_add, UInt32.toNat_div, UInt32.toNat_one, Nat.mod_eq_of_lt (by omega)]
    refine (Nat.div_eq_of_lt_le ?_ ?_).symm
    · rw [Nat.succ_mul, Nat.mul_comm]
      omega
    · rw [Nat.succ_mul, Nat.succ_mul, Nat.mul_comm]
      omega

theorem alignUp_fits (a : UInt32) {b : UInt32} (hb : 0 < b.toNat) :
    Fits (roundUp a.toNat b.toNat) (fun c => c.toNat = roundUp a.toNat b.toNat) (alignUp a b) := by
  unfold alignUp multiplySizes roundUp
  rw [← divideUp_toNat a hb]
  split
  · next h =>
    exact .inl ⟨h, _, rfl, (UInt32.toNat_mul (divideUp a b) b).trans (Nat.mod_eq_of_lt h)⟩
  · next h => exact .inr ⟨Nat.not_lt.mp h, _, .inr rfl, rfl⟩

/-! ### Layouts -/

/-- The room that a layout takes. -/
def Layout.room (l : Layout) : Room := ⟨l.size.toNat, l.alignment.toNat⟩

/-- The layout of members of the given rooms, if it fits. -/
def Layout.ofRooms (ms : List (String × Ty)) (rs : List Room) : Layout :=
  ⟨Room.place 0 ms rs, .ofNat (Room.ofMembers rs).size, .ofNat (Room.ofMembers rs).alignment⟩

namespace Structs

variable {s : Structs} {ms : List (String × Ty)} {rs : List Room}

/-- The room of a value. -/
def room (s : Structs) (t : Ty) : Except Fault Room := do
  return ⟨(← s.size t).toNat, (← s.alignment t).toNat⟩

theorem room_eq_ok {t : Ty} {r : Room} : s.room t = .ok r ↔
    ∃ n a, s.size t = .ok n ∧ s.alignment t = .ok a ∧ r = ⟨n.toNat, a.toNat⟩ := by
  unfold room
  constructor
  · intro h
    obtain ⟨n, hn, h⟩ := bind_eq_ok.mp h
    obtain ⟨a, ha, h⟩ := bind_eq_ok.mp h
    cases h
    exact ⟨n, a, hn, ha, rfl⟩
  · rintro ⟨n, a, hn, ha, rfl⟩
    rw [hn, ok_bind, ha]
    rfl

/-- Members are placed as far as their rooms fit.  By induction on the members: the end of those
that are left is not before the end of the first. -/
theorem place_fits (h : List.Forall₂ (fun m r => s.room m.2 = .ok r) ms rs)
    (offset alignment : UInt32) :
    Fits (Room.stop offset.toNat rs) (fun placed => placed.2.1.toNat = Room.stop offset.toNat rs ∧
        placed.2.2.toNat = Room.strictest alignment.toNat rs ∧
        placed.1 = Room.place offset.toNat ms rs ∧
        placed.1.map (fun m => (m.name, m.type)) = ms)
      (s.place offset alignment ms) := by
  induction h generalizing offset alignment with
  | nil => exact .inl ⟨offset.toNat_lt, _, rfl, rfl, rfl, rfl, rfl⟩
  | @cons m r ms rs hr _ ih =>
    obtain ⟨name, type⟩ := m
    obtain ⟨size, own, hsize, hown, rfl⟩ := room_eq_ok.mp hr
    have asked : (max own 1).toNat = Room.own ⟨size.toNat, own.toNat⟩ := toNat_max own 1
    have pos : 0 < (max own 1).toNat := asked ▸ Room.own_pos _
    have stop := Room.le_stop (roundUp offset.toNat (max own 1).toNat + size.toNat) rs
    simp only [place, hsize, hown, ok_bind, Room.stop, Room.strictest, Room.place, ← asked]
    refine (alignUp_fits offset pos).bind (by omega) fun start hstart => ?_
    rw [← hstart] at stop ⊢
    refine (addSizes_fits start size).bind stop fun last hlast => ?_
    rw [← hlast] at stop ⊢
    rw [← toNat_max]
    refine (ih last (max alignment (max own 1))).bind le_rfl ?_
    rintro ⟨placed, stop', alignment'⟩ ⟨hstop, halign, hplaced, names⟩
    have fits : Room.stop last.toNat rs < UInt32.size := hstop ▸ stop'.toNat_lt
    refine .inl ⟨fits, _, rfl, hstop, halign, ?_, congrArg ((name, type) :: ·) names⟩
    rw [UInt32.ofNat_toNat]
    exact congrArg (⟨name, type, start⟩ :: ·) hplaced

/-- A struct is laid out if the room of its members fits, and takes that room. -/
theorem lay_fits (h : List.Forall₂ (fun m r => s.room m.2 = .ok r) ms rs) :
    Fits (Room.ofMembers rs).size (fun l => l = .ofRooms ms rs ∧ l.room = .ofMembers rs ∧
        l.members.map (fun m => (m.name, m.type)) = ms) (s.lay ms) := by
  have pos := Room.strictest_pos rs
  refine (place_fits h 0 1).bind (le_roundUp pos _) ?_
  rintro ⟨placed, stop, alignment⟩ ⟨hstop, halign, rfl, names⟩
  dsimp only at hstop halign names ⊢
  have hstop : stop.toNat = Room.stop 0 rs := hstop
  have halign : alignment.toNat = Room.strictest 1 rs := halign
  have fits := alignUp_fits stop (halign ▸ pos)
  rw [hstop, halign] at fits
  refine fits.bind le_rfl fun size hsize => ?_
  have fits : (Room.ofMembers rs).size < UInt32.size := hsize.symm.trans_lt size.toNat_lt
  refine .inl ⟨fits, _, rfl, ?_, ?_, names⟩
  · rw [Layout.ofRooms, Room.ofMembers, ← hsize, ← halign, UInt32.ofNat_toNat, UInt32.ofNat_toNat]
    rfl
  · rw [Layout.room, hsize, halign]
    rfl

end Structs

end Gauge
