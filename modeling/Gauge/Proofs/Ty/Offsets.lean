import Mathlib.Data.List.Forall2
import Gauge.Proofs.Module.Structs

/-!
# Proofs — where the members of a struct lie

A struct is laid out member by member: each at the least multiple of its alignment behind the one
before it, and the whole as long as its alignment asks for (`Layout.Packed`).  What makes this right
at every depth is that all alignments divide eight, so that of two of them the smaller divides the
larger: the alignment of a struct is a multiple of that of everything inside it
(`Structs.Holds.aligned`).
-/

namespace Gauge

/-! ### What a layout is to be -/

/-- A type whose values can be stored: a builtin scalar, a pointer, or a struct that has the layout
its members give, where these can be stored. -/
inductive Structs.Stored (s : Structs) : Ty → Prop where
  | scalar {f : Flags} {c : Scalar} : Ty.scalar .none c ∈ Builtin.all → Stored s (.scalar f c)
  | pointer {f : Flags} {stamp : Stamp} {pointed : Ty} : Stored s (.pointer f stamp pointed)
  | struct {f : Flags} {r : StructRef} {l : Layout} : s.layout? r = some l →
      s.lay (l.members.map fun m => (m.name, m.type)) = .ok l →
      (∀ m ∈ l.members, Stored s m.type) → Stored s (.struct f r)

/-- The members stand one behind the other, from `start` up to `stop`, each as early as its
alignment allows. -/
def Layout.Follows (s : Structs) : Nat → List Member → Nat → Prop
  | start, [], stop => start = stop
  | start, m :: ms, stop => ∃ size alignment, s.size m.type = .ok size ∧
      s.alignment m.type = .ok alignment ∧
      IsLeast {o | alignment.toNat ∣ o ∧ start ≤ o} m.offset.toNat ∧
      Follows s (m.offset.toNat + size.toNat) ms stop

/-- The layout of a struct with the given members: no room is lost that their alignments do not ask
for, and no two of them share any. -/
structure Layout.Packed (s : Structs) (members : List (String × Ty)) (l : Layout) : Prop where
  names : l.members.map (fun m => (m.name, m.type)) = members
  offsets : ∃ stop, Follows s 0 l.members stop ∧
    IsLeast {n | l.alignment.toNat ∣ n ∧ stop ≤ n} l.size.toNat
  alignment : IsGreatest {a | a = 1 ∨ ∃ m ∈ members, ∃ b, s.alignment m.2 = .ok b ∧ b.toNat = a}
    l.alignment.toNat
  disjoint : l.members.Pairwise fun a b =>
    ∃ n, s.size a.type = .ok n ∧ a.offset.toNat + n.toNat ≤ b.offset.toNat
  inside : ∀ m ∈ l.members, ∃ n, s.size m.type = .ok n ∧ m.offset.toNat + n.toNat ≤ l.size.toNat

/-- In a value of the first type, one of the second, which is no struct, lies at an offset: it is
the value itself, or it lies inside a member. -/
inductive Structs.Holds (s : Structs) : Ty → Nat → Ty → Prop where
  | self {t : Ty} : t.struct? = none → Holds s t 0 t
  | member {f : Flags} {r : StructRef} {l : Layout} {m : Member} {o : Nat} {leaf : Ty} :
      s.layout? r = some l → m ∈ l.members → Holds s m.type o leaf →
      Holds s (.struct f r) (m.offset.toNat + o) leaf

/-! ### Alignments -/

/-- Of two alignments the smaller divides the larger. -/
theorem dvd_of_dvd_eight {a b : Nat} (ha : a ∣ 8) (hb : b ∣ 8) (h : a ≤ b) : a ∣ b := by
  have all : ∀ a ≤ 8, ∀ b ≤ 8, a ∣ 8 → b ∣ 8 → a ≤ b → a ∣ b := by decide
  exact all a (Nat.le_of_dvd (by decide) ha) b (Nat.le_of_dvd (by decide) hb) ha hb h

theorem Builtin.alignment_dvd {c : Scalar} (h : Ty.scalar .none c ∈ all) :
    c.alignment.toNat ∣ 8 := by
  have each : ∀ t ∈ all, t.scalar?.all (fun c => c.alignment.toNat ∣ 8) = true := by decide
  simpa [Ty.scalar?] using each _ h

namespace Structs

variable {s s' : Structs} {t : Ty} {members : List (String × Ty)}

/-- The strictest of alignments that divide eight is one that does. -/
theorem strictest_dvd {rs : List Room} (h : ∀ r ∈ rs, r.alignment ∣ 8) :
    Room.strictest 1 rs ∣ 8 := by
  rcases (Room.strictest_isGreatest 1 rs).1 with h1 | ⟨r, hr, h1⟩
  · rw [h1]
    decide
  · rw [← h1, Room.own, Nat.max_eq_left (Nat.pos_of_dvd_of_pos (h r hr) (by decide))]
    exact h r hr

/-- The rooms of members, each of which has one. -/
theorem rooms_of_each (h : ∀ m ∈ members, ∃ r, s.room m.2 = .ok r ∧ r.alignment ∣ 8) :
    ∃ rs, List.Forall₂ (fun m r => s.room m.2 = .ok r) members rs ∧ ∀ r ∈ rs, r.alignment ∣ 8 := by
  induction members with
  | nil => exact ⟨[], .nil, by simp⟩
  | cons m members ih =>
    obtain ⟨⟨r, hr, hdvd⟩, rest⟩ := List.forall_mem_cons.mp h
    obtain ⟨rs, hrs, all⟩ := ih rest
    exact ⟨r :: rs, .cons hr hrs, List.forall_mem_cons.mpr ⟨hdvd, all⟩⟩

theorem room_of_layout {f : Flags} {r : StructRef} {l : Layout} (hl : s.layout? r = some l) :
    s.room (.struct f r) = .ok l.room := by
  refine room_eq_ok.mpr ⟨l.size, l.alignment, ?_, ?_, rfl⟩
  · simp only [size, layout, hl, Except.map]
  · simp only [alignment, layout, hl, Except.map]

/-- What can be stored has a size, and an alignment that divides eight. -/
theorem Stored.room (h : s.Stored t) : ∃ r, s.room t = .ok r ∧ r.alignment ∣ 8 := by
  induction h with
  | scalar hc => exact ⟨_, rfl, Builtin.alignment_dvd hc⟩
  | pointer => exact ⟨_, rfl, by decide⟩
  | @struct f r l hl lay _ ih =>
    have each : ∀ m ∈ l.members.map fun m => (m.name, m.type), ∃ r, s.room m.2 = .ok r ∧
        r.alignment ∣ 8 := List.forall_mem_map.mpr ih
    obtain ⟨rs, hrs, all⟩ := rooms_of_each each
    refine ⟨l.room, room_of_layout hl, ?_⟩
    rw [((lay_fits hrs).of_ok lay).2.2.1]
    exact strictest_dvd all

/-- The alignment of what can be stored. -/
theorem Stored.alignment_dvd {a : UInt32} (h : s.Stored t) (ha : s.alignment t = .ok a) :
    a.toNat ∣ 8 := by
  obtain ⟨r, hr, hdvd⟩ := h.room
  obtain ⟨n, b, -, hb, rfl⟩ := room_eq_ok.mp hr
  cases ha.symm.trans hb
  exact hdvd

theorem Stored.rooms (h : ∀ m ∈ members, s.Stored m.2) :
    ∃ rs, List.Forall₂ (fun m r => s.room m.2 = .ok r) members rs ∧ ∀ r ∈ rs, r.alignment ∣ 8 :=
  rooms_of_each fun m hm => (h m hm).room

/-- The layout depends on the table only by the rooms of the members. -/
theorem lay_congr {l : Layout} (stored : ∀ m ∈ members, s.Stored m.2)
    (same : ∀ m ∈ members, s'.room m.2 = s.room m.2) (h : s.lay members = .ok l) :
    s'.lay members = .ok l := by
  obtain ⟨rs, hrs, -⟩ := Stored.rooms stored
  have hrs' : List.Forall₂ (fun m r => s'.room m.2 = .ok r) members rs :=
    ((List.forall₂_and_left _ _).mpr ⟨same, hrs⟩).imp fun _ _ h => h.1.trans h.2
  obtain ⟨fits, rfl, -⟩ := (lay_fits hrs).of_ok h
  obtain ⟨l', lay', rfl, -⟩ := (lay_fits hrs').ok_of_lt fits
  exact lay'

/-- Structs that get their members later change nothing for those that have theirs. -/
theorem Stored.mono (kept : ∀ r l, s.layout? r = some l → s'.layout? r = some l)
    (h : s.Stored t) : s'.Stored t ∧ s'.room t = s.room t := by
  induction h with
  | scalar hc => exact ⟨.scalar hc, rfl⟩
  | pointer => exact ⟨.pointer, rfl⟩
  | @struct f r l hl lay stored ih =>
    have hl' := kept r l hl
    have lay' := lay_congr (List.forall_mem_map.mpr stored)
      (List.forall_mem_map.mpr fun m hm => (ih m hm).2) lay
    exact ⟨.struct hl' lay' fun m hm => (ih m hm).1,
      (room_of_layout hl').trans (room_of_layout hl).symm⟩

end Structs

/-! ### Members -/

namespace Layout

variable {s : Structs} {members : List Member} {start stop : Nat}

/-- Members that follow one another are aligned, lie between the ends and are apart. -/
theorem Follows.apart (h : Follows s start members stop) : start ≤ stop ∧
    (∀ m ∈ members, start ≤ m.offset.toNat ∧
      (∃ n, s.size m.type = .ok n ∧ m.offset.toNat + n.toNat ≤ stop) ∧
      ∃ a, s.alignment m.type = .ok a ∧ a.toNat ∣ m.offset.toNat) ∧
    members.Pairwise fun a b =>
      ∃ n, s.size a.type = .ok n ∧ a.offset.toNat + n.toNat ≤ b.offset.toNat := by
  induction members generalizing start with
  | nil => exact ⟨Nat.le_of_eq h, by simp, .nil⟩
  | cons m ms ih =>
    obtain ⟨n, a, hn, ha, ⟨⟨hdvd, hm⟩, -⟩, rest⟩ := h
    obtain ⟨le, between, pairwise⟩ := ih rest
    refine ⟨by omega, List.forall_mem_cons.mpr ⟨⟨hm, ⟨n, hn, le⟩, a, ha, hdvd⟩, ?_⟩, ?_⟩
    · intro m' hm'
      exact ⟨by have := (between m' hm').1; omega, (between m' hm').2⟩
    · exact .cons (fun m' hm' => ⟨n, hn, (between m' hm').1⟩) pairwise

end Layout

namespace Structs

variable {s s' : Structs} {members : List (String × Ty)}

/-- Members that are placed follow one another. -/
theorem follows_place {offset alignment stop a : UInt32} {placed : List Member}
    (stored : ∀ m ∈ members, s.Stored m.2)
    (h : s.place offset alignment members = .ok (placed, stop, a)) :
    Layout.Follows s offset.toNat placed stop.toNat := by
  induction members generalizing offset alignment placed with
  | nil =>
    cases h
    exact rfl
  | cons m members ih =>
    obtain ⟨first, rest⟩ := List.forall_mem_cons.mp stored
    obtain ⟨own, hown, h⟩ := bind_eq_ok.mp h
    obtain ⟨start, hstart, h⟩ := bind_eq_ok.mp h
    obtain ⟨size, hsize, h⟩ := bind_eq_ok.mp h
    obtain ⟨last, hlast, h⟩ := bind_eq_ok.mp h
    obtain ⟨⟨placed, stop, a⟩, hplaced, h⟩ := bind_eq_ok.mp h
    cases h
    have pos : 0 < own.toNat := Nat.pos_of_dvd_of_pos (first.alignment_dvd hown) (by decide)
    have asked : (max own 1).toNat = own.toNat :=
      (toNat_max own 1).trans (Nat.max_eq_left pos)
    refine ⟨size, own, hsize, hown, ?_, ?_⟩
    · have least := roundUp_isLeast pos offset.toNat
      rwa [← asked, ← ((alignUp_fits offset (asked ▸ pos)).of_ok hstart).2, asked] at least
    · rw [← ((addSizes_fits start size).of_ok hlast).2]
      exact ih rest hplaced

/-- The alignments that the rooms of members ask for are those of their types. -/
theorem exists_own_iff {rs : List Room} (h : List.Forall₂ (fun m r => s.room m.2 = .ok r)
    members rs)
    (dvd : ∀ r ∈ rs, r.alignment ∣ 8) (a : Nat) : (∃ r ∈ rs, r.own = a) ↔
      ∃ m ∈ members, ∃ b, s.alignment m.2 = .ok b ∧ b.toNat = a := by
  induction h with
  | nil => simp
  | @cons m r members rs hr _ ih =>
    obtain ⟨first, rest⟩ := List.forall_mem_cons.mp dvd
    obtain ⟨n, b, -, hb, rfl⟩ := room_eq_ok.mp hr
    have own : Room.own ⟨n.toNat, b.toNat⟩ = b.toNat :=
      Nat.max_eq_left (Nat.pos_of_dvd_of_pos first (by decide))
    simp only [List.mem_cons, exists_eq_or_imp, ih rest, own, hb, Except.ok.injEq, exists_eq_left']

/-- A layout of members that can be stored is packed. -/
theorem packed_lay {l : Layout} (stored : ∀ m ∈ members, s.Stored m.2)
    (h : s.lay members = .ok l) : l.Packed s members := by
  obtain ⟨rs, hrs, dvd⟩ := Stored.rooms stored
  obtain ⟨-, -, room, names⟩ := (lay_fits hrs).of_ok h
  obtain ⟨⟨placed, stop, a⟩, hplaced, h⟩ := bind_eq_ok.mp h
  obtain ⟨size, hsize, h⟩ := bind_eq_ok.mp h
  cases h
  have strictest : a.toNat = Room.strictest 1 rs := congrArg Room.alignment room
  have greatest := Room.strictest_isGreatest 1 rs
  have pos : 0 < a.toNat := strictest ▸ Room.strictest_pos rs
  have least := roundUp_isLeast pos stop.toNat
  rw [← ((alignUp_fits stop pos).of_ok hsize).2] at least
  have follows := follows_place stored hplaced
  obtain ⟨-, between, pairwise⟩ := follows.apart
  refine ⟨names, ⟨_, follows, least⟩, ?_, pairwise, fun m hm => ?_⟩
  · simp only [← exists_own_iff hrs dvd, strictest]
    exact greatest
  · obtain ⟨-, ⟨n, hn, hle⟩, -⟩ := between m hm
    exact ⟨n, hn, hle.trans least.1.2⟩

/-- What is stored in a struct, at any depth, is aligned: its alignment divides its offset and the
alignment of everything around it. -/
theorem Holds.aligned {t leaf : Ty} {offset : Nat} {b : UInt32} (h : s.Holds t offset leaf)
    (ht : s.Stored t) (hb : s.alignment t = .ok b) :
    ∃ a, s.alignment leaf = .ok a ∧ a.toNat ∣ offset ∧ a.toNat ∣ b.toNat := by
  induction h generalizing b with
  | self _ => exact ⟨b, hb, Nat.dvd_zero _, Nat.dvd_refl _⟩
  | @member f r l m o leaf hl hm _ ih =>
    have eight := ht.alignment_dvd hb
    cases ht with
    | @struct _ _ l' hl' lay stored =>
      cases hl.symm.trans hl'
      have packed := packed_lay (List.forall_mem_map.mpr stored) lay
      obtain ⟨stop, follows, -⟩ := packed.offsets
      obtain ⟨-, -, c, hc, offset⟩ := follows.apart.2.1 m hm
      obtain ⟨a, ha, ho, hdvd⟩ := ih (stored m hm) hc
      have own : l.alignment = b := by
        simp only [alignment, layout, hl, Except.map] at hb
        exact Except.ok.inj hb
      have le := packed.alignment.2 (.inr ⟨_, List.mem_map_of_mem hm, c, hc, rfl⟩)
      rw [own] at le
      exact ⟨a, ha, Nat.dvd_add (hdvd.trans offset) ho,
        hdvd.trans (dvd_of_dvd_eight ((stored m hm).alignment_dvd hc) eight le)⟩

/-- **Layouts are packed, and aligned at every depth.**  A struct that has no members yet is given
members of types that can be stored.  If the room they ask for has a size of 32 bits, each lies as
early as its alignment allows behind the one before it, the struct has the largest of their
alignments and the least size that suits it, and a scalar or a pointer anywhere inside it lies at a
multiple of its own alignment; the struct can then be stored itself, and the room of all other types
is what it was.  Otherwise the size overflows. -/
theorem complete_packed {r : StructRef} (hid : r.id < s.entries.length) (hnew : s.isReady r = false)
    (hm : ∀ m ∈ members, s.Stored m.2) :
    ∃ rooms, List.Forall₂ (fun m room => s.room m.2 = .ok room) members rooms ∧
      ((Room.ofMembers rooms).size < UInt32.size →
        ∃ s' l, s.complete r members = .ok s' ∧ s'.layout? r = some l ∧ l.Packed s members ∧
          (∀ f offset leaf, s'.Holds (.struct f r) offset leaf →
            ∃ a, s'.alignment leaf = .ok a ∧ a.toNat ∣ offset) ∧
          (∀ f, s'.Stored (.struct f r) ∧ s'.room (.struct f r) = .ok (.ofMembers rooms)) ∧
          ∀ t, s.Stored t → s'.Stored t ∧ s'.room t = s.room t) ∧
      (UInt32.size ≤ (Room.ofMembers rooms).size →
        ∃ f, f.IsOverflow ∧ s.complete r members = .error f) := by
  obtain ⟨rooms, hrooms, -⟩ := Stored.rooms hm
  refine ⟨rooms, hrooms, fun fits => ?_, fun large => ?_⟩
  · obtain ⟨l, lay, -, room, names⟩ := (lay_fits hrooms).ok_of_lt fits
    have hl := isReady_withLayout hid l
    have kept : ∀ x l', s.layout? x = some l' → (s.withLayout r l).layout? x = some l' := by
      intro x l' hx
      rw [withLayout, layout?_update, if_neg, hx]
      intro hxr
      have same : s.layout? x = s.layout? r := by rw [layout?, layout?, entry?, entry?, hxr]
      rw [isReady, ← same, hx] at hnew
      cases hnew
    have own : ∀ f, (s.withLayout r l).Stored (.struct f r) := by
      have lay' := lay_congr hm (fun m h => ((hm m h).mono kept).2) lay
      have stored : ∀ m ∈ l.members, s.Stored m.type := fun m h =>
        hm (m.name, m.type) (names ▸ List.mem_map_of_mem h)
      rw [← names] at lay'
      exact fun f => .struct hl lay' fun m h => ((stored m h).mono kept).1
    refine ⟨s.withLayout r l, l, ?_, hl, packed_lay hm lay, fun f offset leaf h => ?_, fun f => ?_,
      fun t ht => ht.mono kept⟩
    · rw [complete_eq_lay hnew, lay]
      rfl
    · obtain ⟨a, ha, hdvd, -⟩ := h.aligned (own f) (b := l.alignment) (by
        simp only [alignment, layout, hl, Except.map])
      exact ⟨a, ha, hdvd⟩
    · exact ⟨own f, (room_of_layout hl).trans (congrArg _ room)⟩
  · rcases lay_fits hrooms with ⟨small, -⟩ | ⟨-, f, hf, lay⟩
    · exact absurd small (Nat.not_lt.mpr large)
    · refine ⟨f, hf, ?_⟩
      rw [complete_eq_lay hnew, lay]
      rfl

/-- A struct of a byte and a long number, and one that is to hold it. -/
def halfLaid : Structs :=
  ⟨[⟨"Inner", some ⟨[⟨"a", Builtin.u8, 0⟩, ⟨"b", Builtin.u64, 8⟩], 16, 8⟩, none⟩,
    ⟨"Outer", none, none⟩]⟩

/-- Members of which the second holds a struct. -/
def outerMembers : List (String × Ty) :=
  [("x", Builtin.u8), ("inner", .struct .none ⟨0, "Inner"⟩), ("p", .pointerTo Builtin.u8),
    ("y", Builtin.u16)]

/-- The number inside the second member lies at a multiple of eight, and so does the pointer behind
that member; the last member makes the struct longer than its end. -/
theorem complete_packed_inner : ∃ s' l, halfLaid.complete ⟨1, "Outer"⟩ outerMembers = .ok s' ∧
    s'.layout? ⟨1, "Outer"⟩ = some l ∧ l.members.map (·.offset) = [0, 8, 24, 32] ∧ l.size = 40 ∧
    ∃ a, s'.alignment Builtin.u64 = .ok a ∧ a.toNat ∣ 16 := by
  have stored : ∀ m ∈ outerMembers, halfLaid.Stored m.2 := by
    refine List.forall_mem_cons.mpr ⟨.scalar (by decide), List.forall_mem_cons.mpr
      ⟨.struct rfl rfl ?_, List.forall_mem_cons.mpr ⟨.pointer,
      List.forall_mem_singleton.mpr (.scalar (by decide))⟩⟩⟩
    exact List.forall_mem_cons.mpr ⟨.scalar (by decide), List.forall_mem_singleton.mpr
      (.scalar (by decide))⟩
  obtain ⟨rooms, hrooms, fits, -⟩ :=
    complete_packed (s := halfLaid) (r := ⟨1, "Outer"⟩) (by decide) rfl stored
  obtain _ | ⟨⟨⟩, _ | ⟨⟨⟩, _ | ⟨⟨⟩, _ | ⟨⟨⟩, ⟨⟩⟩⟩⟩⟩ := hrooms
  obtain ⟨s', l, done, hl, -, aligned, -⟩ := fits (by decide)
  cases done
  cases hl
  refine ⟨_, _, rfl, rfl, rfl, rfl, aligned .none 16 Builtin.u64 ?_⟩
  refine .member (m := ⟨"inner", .struct .none ⟨0, "Inner"⟩, 8⟩) (o := 8) rfl ?_ ?_
  · exact .tail _ (.head _)
  · refine .member (m := ⟨"b", Builtin.u64, 8⟩) (o := 0) rfl ?_ (.self rfl)
    exact .tail _ (.head _)

end Structs

end Gauge
