import Gauge.Proofs.Range.Order

/-!
# Proofs — unions of ranges

The ranges of one form, for instance all ranges of a type (`Range.Shaped`), have a least range
above any two of them, in the order `Range.Within`, and merging finds it.  The laws of unions follow
from that alone (`Joins.symm`, `Joins.assoc`, `Joins.unique`).

A recursive struct may be cut at different depths in the two ranges.  The shorter side is opaque
there, which is above everything, and so is the union.

Main statement: `Range.merge_joins`.
-/

namespace Gauge

/-- `r` is the least thing above both `a` and `b`. -/
structure Joins {α : Type} (le : α → α → Prop) (a b r : α) : Prop where
  left : le a r
  right : le b r
  least : ∀ u, le a u → le b u → le r u

namespace Joins

variable {α : Type} {le : α → α → Prop} {a b c r r' x y z : α}

theorem symm (h : Joins le a b r) : Joins le b a r where
  left := h.right
  right := h.left
  least u hb ha := h.least u ha hb

theorem unique (anti : ∀ {x y}, le x y → le y x → x = y) (h : Joins le a b r)
    (h' : Joins le a b r') : r = r' :=
  anti (h.least r' h'.left h'.right) (h'.least r h.left h.right)

theorem assoc (trans : ∀ {x y z}, le x y → le y z → le x z) (hx : Joins le a b x)
    (hy : Joins le b c y) (hz : Joins le x c z) : Joins le a y z where
  left := trans hx.left hz.left
  right := hy.least z (trans hx.right hz.left) hz.right
  least u ha hu := hz.least u (hx.least u ha (trans hy.left hu)) (trans hy.right hu)

end Joins

theorem Bools.joins_union (x y : Bools) : Joins Within x y (x.union y) where
  left := ⟨fun h => by simp [union, h], fun h => by simp [union, h]⟩
  right := ⟨fun h => by simp [union, h], fun h => by simp [union, h]⟩
  least _ hx hy := by
    simp only [Within, union, Bool.or_eq_true]
    exact ⟨Or.rec hx.1 hy.1, Or.rec hx.2 hy.2⟩

theorem Bools.Within.antisymm {x y : Bools} (h : x.Within y) (h' : y.Within x) : x = y := by
  have falses : x.falses = y.falses := Bool.eq_iff_iff.mpr ⟨h.1, h'.1⟩
  have trues : x.trues = y.trues := Bool.eq_iff_iff.mpr ⟨h.2, h'.2⟩
  cases x
  cases y
  exact congrArg₂ Bools.mk falses trues

namespace Range

/-! ### The order -/

theorem WithinAll.eq_nil {bs : List Range} (h : WithinAll [] bs) : bs = [] := by
  cases bs with
  | nil => rfl
  | cons _ _ => exact h.elim

theorem WithinAll.length_eq : ∀ {as bs : List Range}, WithinAll as bs → as.length = bs.length
  | [], [], _ => rfl
  | _ :: _, _ :: _, h => congrArg (· + 1) (length_eq h.2)

mutual

theorem Within.trans : ∀ {a b c : Range}, a.Within b → b.Within c → a.Within c
  | .unsigned _ _, .unsigned _ _, .unsigned _ _, h, h'
  | .signed _ _, .signed _ _, .signed _ _, h, h' => ⟨h'.1.trans h.1, h.2.trans h'.2⟩
  | .bools _, .bools _, .bools _, h, h' => ⟨h'.1 ∘ h.1, h'.2 ∘ h.2⟩
  | .pointer _ _, .pointer _ _, .pointer _ _, h, h' =>
    ⟨h.1.trans h'.1, h'.2.1 ∘ h.2.1, h'.2.2 ∘ h.2.2⟩
  | .array _, .array _, .array _, h, h' => by
    rcases h' with rfl | h'
    · exact .inl rfl
    · rcases h with rfl | h
      · exact .inl h'.eq_nil
      · exact .inr (h.trans h')
  | .void, .void, .void, _, _ => trivial

theorem WithinAll.trans : ∀ {as bs cs : List Range}, WithinAll as bs → WithinAll bs cs →
    WithinAll as cs
  | [], [], [], _, _ => trivial
  | _ :: _, _ :: _, _ :: _, h, h' => ⟨h.1.trans h'.1, h.2.trans h'.2⟩

end

mutual

/-- Ranges that lie in each other are the same. -/
theorem Within.antisymm : ∀ {a b : Range}, a.Within b → b.Within a → a = b
  | .unsigned _ _, .unsigned _ _, h, h' =>
    congrArg₂ Range.unsigned (h'.1.antisymm h.1) (h.2.antisymm h'.2)
  | .signed _ _, .signed _ _, h, h' =>
    congrArg₂ Range.signed (h'.1.antisymm h.1) (h.2.antisymm h'.2)
  | .bools _, .bools _, h, h' => congrArg Range.bools (Bools.Within.antisymm h h')
  | .pointer _ _, .pointer _ _, h, h' =>
    congrArg₂ Range.pointer (h.1.antisymm h'.1) (h.2.antisymm h'.2)
  | .array _, .array _, h, h' => by
    rcases h with rfl | h
    · rcases h' with rfl | h'
      · rfl
      · rw [h'.eq_nil]
    · rcases h' with rfl | h'
      · rw [h.eq_nil]
      · exact congrArg Range.array (h.antisymm h')
  | .void, .void, _, _ => rfl

theorem WithinAll.antisymm : ∀ {as bs : List Range}, WithinAll as bs → WithinAll bs as → as = bs
  | [], [], _, _ => rfl
  | _ :: _, _ :: _, h, h' => congrArg₂ List.cons (h.1.antisymm h'.1) (h.2.antisymm h'.2)

end

/-! ### Merging -/

theorem mergeAll_nil (rs : List Range) : mergeAll [] rs = .ok [] := by cases rs <;> rfl

mutual

theorem merge_self : ∀ r : Range, r.merge r = .ok r
  | .unsigned _ _ | .signed _ _ => by simp [merge]
  | .bools v => by simp [merge, Bools.union]
  | .pointer p v => by
    rw [merge, merge_self p]
    simp [Bools.union]
  | .array rs => by
    rw [merge, if_pos rfl, mergeAll_self rs]
    rfl
  | .void => rfl

theorem mergeAll_self : ∀ rs : List Range, mergeAll rs rs = .ok rs
  | [] => rfl
  | r :: rs => by
    rw [mergeAll, merge_self r, mergeAll_self rs]
    rfl

end

/-- What lies above two arrays is opaque, or lies above all their parts. -/
theorem array_least {as bs rs : List Range} {u : Range} (ha : (array as).Within u)
    (hb : (array bs).Within u)
    (least : ∀ us, WithinAll as us → WithinAll bs us → (array rs).Within (array us)) :
    (array rs).Within u := by
  cases u with
  | array us =>
    rcases ha with rfl | ha
    · exact .inl rfl
    · rcases hb with rfl | hb
      · exact .inl rfl
      · exact least us ha hb
  | _ => exact ha.elim

mutual

/-- A union is the least range above both.  By induction on the first. -/
theorem joins_of_merge : ∀ {a b r : Range}, a.merge b = .ok r → Joins Within a b r
  | .unsigned a b, .unsigned c d, r, h => by
    cases h
    exact ⟨⟨min_le_left a c, le_max_left b d⟩, ⟨min_le_right a c, le_max_right b d⟩,
      fun u ha hb => by
        cases u with
        | unsigned _ _ => exact ⟨le_min ha.1 hb.1, max_le ha.2 hb.2⟩
        | _ => exact ha.elim⟩
  | .signed a b, .signed c d, r, h => by
    cases h
    exact ⟨⟨min_le_left a c, le_max_left b d⟩, ⟨min_le_right a c, le_max_right b d⟩,
      fun u ha hb => by
        cases u with
        | signed _ _ => exact ⟨le_min ha.1 hb.1, max_le ha.2 hb.2⟩
        | _ => exact ha.elim⟩
  | .bools x, .bools y, r, h => by
    cases h
    obtain ⟨left, right, least⟩ := Bools.joins_union x y
    exact ⟨left, right, fun u ha hb => by
      cases u with
      | bools v => exact least v ha hb
      | _ => exact ha.elim⟩
  | .pointer p x, .pointer q y, r, h => by
    rw [merge] at h
    obtain ⟨pointed, hp, h⟩ := bind_eq_ok.mp h
    cases h
    have bools := Bools.joins_union x y
    have inner := joins_of_merge hp
    exact ⟨⟨inner.left, bools.left⟩, ⟨inner.right, bools.right⟩, fun u ha hb => by
      cases u with
      | pointer v z => exact ⟨inner.least v ha.1 hb.1, bools.least z ha.2 hb.2⟩
      | _ => exact ha.elim⟩
  | .array as, .array bs, r, h => by
    rw [merge] at h
    split at h
    · next hl =>
      obtain ⟨rs, hrs, rfl⟩ := map_eq_ok.mp h
      have inner := joinsAll_of_merge hl hrs
      exact ⟨.inr inner.left, .inr inner.right, fun u ha hb =>
        array_least ha hb fun us ha hb => .inr (inner.least us ha hb)⟩
    · next hl =>
      cases h
      exact ⟨.inl rfl, .inl rfl, fun u ha hb => array_least ha hb fun us ha hb =>
        absurd (ha.length_eq.trans hb.length_eq.symm) hl⟩
  | .void, .void, r, h => by
    cases h
    exact ⟨trivial, trivial, fun u ha _ => ha⟩

/-- Ranges are merged one by one. -/
theorem joinsAll_of_merge : ∀ {as bs rs : List Range}, as.length = bs.length →
    mergeAll as bs = .ok rs → Joins WithinAll as bs rs
  | [], [], rs, _, h => by
    cases h
    exact ⟨trivial, trivial, fun _ ha _ => ha⟩
  | a :: as, b :: bs, rs, hl, h => by
    rw [mergeAll] at h
    obtain ⟨first, hf, h⟩ := bind_eq_ok.mp h
    obtain ⟨rest, hr, h⟩ := bind_eq_ok.mp h
    cases h
    have head := joins_of_merge hf
    have tail := joinsAll_of_merge (Nat.succ.inj hl) hr
    exact ⟨⟨head.left, tail.left⟩, ⟨head.right, tail.right⟩, fun us ha hb => by
      cases us with
      | nil => exact ha.elim
      | cons u us => exact ⟨head.least u ha.1 hb.1, tail.least us ha.2 hb.2⟩⟩

end

/-! ### Ranges of one form -/

/-- A range of the kind that the values of a scalar type have. -/
def ShapedScalar (c : Scalar) : Range → Prop
  | .unsigned _ _ => c.kind = .unsignedInt ∨ c.kind = .char
  | .signed _ _ => c.kind = .signedInt
  | .bools _ => c.kind = .bool
  | .void => c.kind = .void
  | .pointer _ _ | .array _ => False

mutual

/-- A range of the form of a type, whatever its bounds.  That of a struct is opaque, or has a part
for each member; of a function nothing is known. -/
def Shaped (s : Structs) : Range → Ty → Prop
  | r, .scalar _ c => r.ShapedScalar c
  | .pointer r _, .pointer _ _ p => r.Shaped s p
  | .array rs, .struct _ k =>
    rs = [] ∨ ∃ l, s.layout? k = some l ∧ ShapedAll s rs (l.members.map (·.type))
  | .void, .function _ _ _ _ _ => True
  | _, _ => False

/-- Ranges of the forms of some types, one for each. -/
def ShapedAll (s : Structs) : List Range → List Ty → Prop
  | [], [] => True
  | r :: rs, t :: ts => r.Shaped s t ∧ ShapedAll s rs ts
  | _, _ => False

end

variable {s : Structs} {t : Ty} {a b c : Range}

theorem shaped_scalar {f : Flags} {c : Scalar} :
    a.Shaped s (.scalar f c) ↔ a.ShapedScalar c := by
  cases a <;> exact Iff.rfl

theorem ShapedScalar.merge {c : Scalar} (ha : a.ShapedScalar c) (hb : b.ShapedScalar c) :
    ∃ r, a.merge b = .ok r ∧ r.ShapedScalar c := by
  cases a <;> cases b <;> simp_all [Range.merge, ShapedScalar]

mutual

/-- Two ranges of one form have a union of that form.  By induction on the first. -/
theorem Shaped.merge : ∀ {a b : Range} {t : Ty}, a.Shaped s t → b.Shaped s t →
    ∃ r, a.merge b = .ok r ∧ r.Shaped s t
  | a, b, .scalar f c, ha, hb => by
    obtain ⟨r, hr, hs⟩ := (shaped_scalar.mp ha).merge (shaped_scalar.mp hb)
    exact ⟨r, hr, shaped_scalar.mpr hs⟩
  | .pointer p x, .pointer q y, .pointer _ _ t, ha, hb => by
    obtain ⟨r, hr, hs⟩ := Shaped.merge (t := t) ha hb
    exact ⟨.pointer r (x.union y), by rw [Range.merge, hr]; rfl, hs⟩
  | .array as, .array bs, .struct f k, ha, hb => by
    rw [Range.merge]
    split
    · next hl =>
      rcases ha with rfl | ⟨l, hla, ha⟩
      · exact ⟨.array [], by rw [mergeAll_nil]; rfl, .inl rfl⟩
      · rcases hb with rfl | ⟨l', hlb, hb⟩
        · obtain rfl := List.length_eq_zero_iff.mp hl
          exact ⟨.array [], rfl, .inl rfl⟩
        · cases hla.symm.trans hlb
          obtain ⟨rs, hr, hs⟩ := ShapedAll.merge ha hb
          exact ⟨.array rs, by rw [hr]; rfl, .inr ⟨l, hla, hs⟩⟩
    · exact ⟨.array [], rfl, .inl rfl⟩
  | .void, .void, .function _ _ _ _ _, _, _ => ⟨.void, rfl, trivial⟩

theorem ShapedAll.merge : ∀ {as bs : List Range} {ts : List Ty}, ShapedAll s as ts →
    ShapedAll s bs ts → ∃ rs, mergeAll as bs = .ok rs ∧ ShapedAll s rs ts
  | [], bs, [], _, _ => ⟨[], mergeAll_nil bs, trivial⟩
  | _ :: _, [], _ :: _, _, hb => hb.elim
  | _ :: _, _ :: _, _ :: _, ha, hb => by
    obtain ⟨r, hr, hs⟩ := Shaped.merge ha.1 hb.1
    obtain ⟨rs, hrs, hss⟩ := ShapedAll.merge ha.2 hb.2
    exact ⟨r :: rs, by rw [mergeAll, hr, hrs]; rfl, hs, hss⟩

end

/-- **Merging is the join of the ranges of a type**: it gives a range of the type's form, the least
one above both, whatever their order and grouping, and a range with itself is itself. -/
theorem merge_joins (ha : a.Shaped s t) (hb : b.Shaped s t) (hc : c.Shaped s t) :
    (∃ r, a.merge b = .ok r ∧ r.Shaped s t ∧ Joins Within a b r ∧ b.merge a = .ok r) ∧
      (∃ x y z, a.merge b = .ok x ∧ b.merge c = .ok y ∧ x.merge c = .ok z ∧ a.merge y = .ok z) ∧
      a.merge a = .ok a := by
  obtain ⟨x, hx, sx⟩ := ha.merge hb
  obtain ⟨y, hy, sy⟩ := hb.merge hc
  obtain ⟨z, hz, -⟩ := sx.merge hc
  obtain ⟨x', hx', -⟩ := hb.merge ha
  obtain ⟨z', hz', -⟩ := ha.merge sy
  have joins := joins_of_merge hx
  have swapped : x' = x := (joins_of_merge hx').unique Within.antisymm joins.symm
  have grouped : z' = z := (joins_of_merge hz').unique Within.antisymm
    (joins.assoc Within.trans (joins_of_merge hy) (joins_of_merge hz))
  exact ⟨⟨x, hx, sx, joins, swapped ▸ hx'⟩, ⟨x, y, z, hx, hy, hz, grouped ▸ hz'⟩, merge_self a⟩

/-- A table of one struct, which holds a byte and a pointer to its like. -/
def nodes : Structs :=
  ⟨[⟨"Node", some ⟨[⟨"value", .scalar .none ⟨"U8", .unsignedInt, 1, 1, none⟩, 0⟩,
    ⟨"next", .pointerTo (.struct .none ⟨0, "Node"⟩), 8⟩], 16, 8⟩, none⟩]⟩

/-- What is known of a node: its value, and what is behind its pointer. -/
def nodeRange (lo hi : Nat) (next : Range) (known : Bools) : Range :=
  .array [.unsigned lo hi, .pointer next known]

/-- One of three ranges of a node is cut behind its pointer, the next one node later, and the last
at once. -/
theorem merge_joins_nodes :
    let shallow := nodeRange 1 2 (.array []) .any
    let deep := nodeRange 5 9 (nodeRange 3 3 (.array []) (.exactly false)) (.exactly true)
    shallow.merge deep = .ok (nodeRange 1 9 (.array []) .any) ∧
      Joins Within shallow deep (nodeRange 1 9 (.array []) .any) ∧
      ∃ x y, shallow.merge deep = .ok x ∧ deep.merge (.array []) = .ok y ∧
        x.merge (.array []) = .ok (.array []) ∧ shallow.merge y = .ok (.array []) := by
  intro shallow deep
  have shaped : ∀ {lo hi next known}, next.Shaped nodes (.struct .none ⟨0, "Node"⟩) →
      (nodeRange lo hi next known).Shaped nodes (.struct .none ⟨0, "Node"⟩) := fun h =>
    .inr ⟨_, rfl, .inl rfl, h, trivial⟩
  have cut : (array []).Shaped nodes (.struct .none ⟨0, "Node"⟩) := .inl rfl
  obtain ⟨⟨r, hr, -, joins, -⟩, ⟨x, y, z, hx, hy, hz, hz'⟩, -⟩ :=
    merge_joins (shaped cut : shallow.Shaped _ _) (shaped (shaped cut) : deep.Shaped _ _) cut
  have merged : shallow.merge deep = .ok (nodeRange 1 9 (.array []) .any) := by decide
  cases hr.symm.trans merged
  cases hx.symm.trans merged
  cases hz
  exact ⟨merged, joins, _, y, hr, hy, rfl, hz'⟩

end Range

end Gauge
