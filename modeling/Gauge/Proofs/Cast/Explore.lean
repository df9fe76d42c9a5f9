import Gauge.Proofs.Cast.Chain
import Gauge.Proofs.Ty.Form
import Mathlib.Data.List.Perm.Subperm

/-!
# Proofs — what a search explores

The states that a search for conversions goes through, as a relation: a state holds the types
reached so far and the conversions taken from them, and changes by settling the nearest type and by
taking a conversion out of the type that was settled last (`CastTable.Explored`).  A search never
fails as long as the conversions it takes can tell the range of their result, and it ends in such a
state, where the nearest type is the one looked for or none is left (`CastTable.search_explored`).

What holds of every state is proved by induction on that relation; the facts about places and
weights that hold of every table are `CastTable.Charted`.
-/

namespace Gauge

/-! ### Weights as numbers -/

namespace Weight

/-- Length and cost in one number; weights are ordered as these numbers are. -/
def rank (w : Weight) : Nat := w.length.toNat * UInt32.size + w.cost.toNat

@[simp] theorem rank_zero : zero.rank = 0 := by simp [rank, zero]

theorem lt_iff_rank {a b : Weight} : a.lt b = true ↔ a.rank < b.rank := by
  have ha := a.cost.toNat_lt
  have hb := b.cost.toNat_lt
  rw [lt_iff, UInt32.lt_iff_toNat_lt, UInt32.lt_iff_toNat_lt, ← UInt32.toNat_inj, rank, rank,
    UInt32.size]
  omega

theorem le_iff_rank {a b : Weight} : a.le b = true ↔ a.rank ≤ b.rank := by
  rw [le, Bool.not_eq_true', ← Bool.not_eq_true, lt_iff_rank, Nat.not_lt]

/-- The number tells the weight. -/
theorem rank_inj {a b : Weight} : a.rank = b.rank ↔ a = b := by
  constructor
  · intro h
    have ha := a.cost.toNat_lt
    have hb := b.cost.toNat_lt
    rw [rank, rank, UInt32.size] at h
    obtain ⟨la, ca⟩ := a
    obtain ⟨lb, cb⟩ := b
    rw [mk.injEq, ← UInt32.toNat_inj, ← UInt32.toNat_inj]
    simp only at *
    omega
  · rintro rfl
    rfl

theorem rank_lt_of_length {a b : Weight} (h : a.length.toNat < b.length.toNat) :
    a.rank < b.rank := by
  rw [← lt_iff_rank, lt_iff, UInt32.lt_iff_toNat_lt]
  exact .inl h

theorem length_add (a b : Weight) :
    (a + b).length.toNat = min (a.length.toNat + b.length.toNat) (UInt32.size - 1) :=
  toNat_saturatingAdd _ _

theorem cost_add (a b : Weight) :
    (a + b).cost.toNat = min (a.cost.toNat + b.cost.toNat) (UInt32.size - 1) :=
  toNat_saturatingAdd _ _

/-- A sum is not lighter than its parts. -/
theorem rank_le_add (a w : Weight) : a.rank ≤ (a + w).rank := by
  have hl := length_add a w
  have hc := cost_add a w
  have := a.length.toNat_lt
  have := a.cost.toNat_lt
  rw [rank, rank]
  rw [UInt32.size] at *
  omega

/-- A limit that the length of a sum reaches only without stopping short. -/
def Open (limit : Weight) : Prop := limit.length.toNat < UInt32.size - 1

variable {a b w limit : Weight}

/-- Within the limit lengths add up exactly. -/
theorem length_add_of_rank (hl : limit.Open) (h : (a + w).rank ≤ limit.rank) :
    (a + w).length.toNat = a.length.toNat + w.length.toNat := by
  have hs := length_add a w
  have := limit.cost.toNat_lt
  rw [rank, rank] at h
  rw [Open] at hl
  rw [UInt32.size] at *
  omega

/-- Adding the same to two weights keeps their order, within the limit. -/
theorem rank_add_le (hl : limit.Open) (hab : a.rank ≤ b.rank) (h : (b + w).rank ≤ limit.rank) :
    (a + w).rank ≤ (b + w).rank := by
  have hb := length_add_of_rank hl h
  have ha := length_add a w
  have hca := cost_add a w
  have hcb := cost_add b w
  rw [← le_iff_rank, le_iff, UInt32.lt_iff_toNat_lt, UInt32.le_iff_toNat_le, ← UInt32.toNat_inj]
    at hab ⊢
  rcases hab with hlt | ⟨heq, hle⟩
  · left
    omega
  · by_cases hsat : a.length.toNat + w.length.toNat ≤ UInt32.size - 1
    · right
      omega
    · have := (b + w).length.toNat_lt
      rw [UInt32.size] at *
      omega

/-- A step that has a length makes a weight larger, within the limit. -/
theorem rank_lt_add (hl : limit.Open) (hw : 1 ≤ w.length.toNat) (h : (a + w).rank ≤ limit.rank) :
    a.rank < (a + w).rank := by
  have ha := length_add_of_rank hl h
  have := a.cost.toNat_lt
  rw [rank, rank]
  rw [UInt32.size] at *
  omega

end Weight

/-! ### Tables -/

/-- The conversions there are: registered ones, those of families, and loading. -/
def Edge.Among (es : List Edge) (fs : List CastFamily) (e : Edge) : Prop :=
  e ∈ es ∨ (∃ f ∈ fs, f.edge? e.source = some e) ∨ (e.source.isFlagged = true ∧ e = .decay e.source)

/-- The conversions that there are and that may be taken, for some values at least. -/
structure Edge.Available (es : List Edge) (fs : List CastFamily) (explicit : Bool) (e : Edge) :
    Prop where
  among : e.Among es fs
  allowed : ∃ range, e.usable range explicit = true

namespace CastTable

/-- Registered conversions are in the group of their source, and families that lead to one type lead
to the values of a scalar.  All structs in the table are in `R`. -/
structure Grouped (t : CastTable) (s : Structs) (R : StructRef → Prop) : Prop where
  source : ∀ g ∈ t.groups, g.source.Over R
  form_eq : ∀ g ∈ t.groups, ∀ e ∈ g.edges, s.form e.source = s.form g.source
  destination : ∀ g ∈ t.groups, ∀ e ∈ g.edges, e.destination.Over R
  apart : t.groups.Pairwise fun g h => s.form g.source ≠ s.form h.source
  plain : ∀ b, .pointerToBool b ∈ t.families → ∃ c, b = .scalar .none c

end CastTable

/-- Looking up a type among the groups gives all conversions that are registered for it. -/
theorem CastGroup.edgesFrom_of_tells {s : Structs} {R : StructRef → Prop} (hR : s.Tells R) {a : Ty}
    (ha : a.Over R) : ∀ {gs : List CastGroup}, (∀ g ∈ gs, g.source.Over R) →
      gs.Pairwise (fun g h => s.form g.source ≠ s.form h.source) →
      ∃ es, (edgesFrom s a gs).outcome = .ok es ∧
        ∀ e, (∃ g ∈ gs, (s.compare a g.source).outcome = .ok true ∧ e ∈ g.edges) → e ∈ es
  | [], _, _ => ⟨[], rfl, fun e he => by obtain ⟨g, hg, -⟩ := he; cases hg⟩
  | g :: gs, hgs, hp => by
    obtain ⟨hg, hp⟩ := List.pairwise_cons.mp hp
    obtain ⟨es, hes, hmem⟩ := edgesFrom_of_tells hR ha
      (fun g hg => hgs g (.tail _ hg)) hp
    obtain ⟨c, hc, hiff⟩ := Structs.compareAlike_outcome hR ha (hgs g (.head _))
    -- a type has the form of one group at most
    have form_eq : ∀ h ∈ g :: gs, (s.compare a h.source).outcome = .ok true →
        s.form a = s.form h.source :=
      fun h hh => (Structs.compare_eq_true_iff hR ha (hgs h hh)).mp
    cases c with
    | true =>
      refine ⟨g.edges, Traced.bind_ok.mpr ⟨true, hc, rfl⟩, ?_⟩
      rintro e ⟨h, hh, hcmp, he⟩
      rcases List.mem_cons.mp hh with rfl | hh'
      · exact he
      · exact absurd ((hiff.mp rfl).symm.trans (form_eq h hh hcmp)) (hg h hh')
    | false =>
      refine ⟨es, Traced.bind_ok.mpr ⟨false, hc, hes⟩, ?_⟩
      rintro e ⟨h, hh, hcmp, he⟩
      rcases List.mem_cons.mp hh with rfl | hh'
      · cases hiff.mpr (form_eq h hh hcmp)
      · exact hmem e ⟨h, hh', hcmp, he⟩

namespace CastTable

variable {t : CastTable} {s : Structs} {R : StructRef → Prop}

/-- Asked for the conversions out of a type, the table gives those that it offers. -/
theorem outgoing_of_tells (hR : s.Tells R) (ht : t.Grouped s R) {a : Ty} (ha : a.Over R) :
    ∃ es, (t.outgoing s a).outcome = .ok es ∧ ∀ e, e ∈ es ↔ t.Offers s a e := by
  obtain ⟨registered, hr, hmem⟩ := CastGroup.edgesFrom_of_tells hR ha ht.source ht.apart
  have run : (t.outgoing s a).outcome = .ok (registered ++ t.families.filterMap (·.edge? a) ++
      if a.isFlagged then [.decay a] else []) :=
    Traced.bind_ok.mpr ⟨_, Traced.bind_ok.mpr ⟨registered, hr, rfl⟩, rfl⟩
  refine ⟨_, run, fun e => ⟨offers_of_outgoing run e, ?_⟩⟩
  rintro (h | h | ⟨hf, rfl⟩)
  · exact List.mem_append_left _ (List.mem_append_left _ (hmem e h))
  · exact List.mem_append_left _ (List.mem_append_right _ (List.mem_filterMap.mpr h))
  · rw [if_pos hf]
    exact List.mem_append_right _ (.head _)

theorem Grouped.mem_edges {g : CastGroup} {e : Edge} (hg : g ∈ t.groups) (he : e ∈ g.edges) :
    e ∈ t.edges := List.mem_flatMap.mpr ⟨g, hg, he⟩

/-- A conversion out of a type starts at an equal one, and is one of the table. -/
theorem Grouped.of_offers (hR : s.Tells R) (ht : t.Grouped s R) {a : Ty} (ha : a.Over R) {e : Edge}
    (h : t.Offers s a e) : s.form e.source = s.form a ∧ e.Among t.edges t.families ∧
      e.destination.Over R := by
  rcases h with ⟨g, hg, hc, he⟩ | ⟨f, hf, hfe⟩ | ⟨hf, rfl⟩
  · have := (Structs.compare_eq_true_iff hR ha (ht.source g hg)).mp hc
    exact ⟨(ht.form_eq g hg e he).trans this.symm, .inl (mem_edges hg he),
      ht.destination g hg e he⟩
  · obtain ⟨stamp, p, rfl, hs, hd⟩ := CastFamily.edge?_cases hfe
    refine ⟨by rw [hs], .inr (.inl ⟨f, hf, by rw [hs]; exact hfe⟩), ?_⟩
    rcases hd with ⟨-, hd⟩ | rfl
    · rw [hd]
      exact Ty.over_withFlags.mpr ha
    · obtain ⟨c, hc⟩ := ht.plain _ hf
      rw [hc]
      trivial
  · exact ⟨rfl, .inr (.inr ⟨hf, rfl⟩), Ty.over_withFlags.mpr ha⟩

end CastTable

/-! ### One step -/

/-- A chain and one more conversion. -/
def Chain.extend (c : Chain) (e : Edge) (range : Range) : Chain :=
  ⟨c.steps ++ [⟨e, range⟩], c.weight + e.weight⟩

namespace Reached

/-- What it takes to get to the type. -/
def rank (r : Reached) : Nat := r.chain.weight.rank

/-- The types reached after the conversion `e` is taken from the type `r` at `place`. -/
inductive Relaxes (s : Structs) (rs : List Reached) (place : Nat) (r : Reached) (e : Edge)
    (range : Range) : List Reached → Prop
  | fresh (h : ∀ x ∈ rs, s.form x.type ≠ s.form e.destination) :
      Relaxes s rs place r e range
        (rs ++ [⟨e.destination, r.chain.extend e range, range, some place, r.tied, false⟩])
  | again {i : Nat} {x : Reached} (hx : rs[i]? = some x)
      (hf : s.form x.type = s.form e.destination) :
      Relaxes s rs place r e range (rs.modify i (revisit place r (r.chain.extend e range) range))

section Revisit

variable {place : Nat} {r x : Reached} {chain : Chain} {range : Range}

/-- What being reached again does to a type. -/
theorem revisit_cases (place : Nat) (r : Reached) (chain : Chain) (range : Range) (x : Reached) :
    (x.settled = true ∧ revisit place r chain range x = x) ∨
    (x.settled = false ∧ chain.weight.rank < x.rank ∧ revisit place r chain range x =
      { x with chain := chain, range := range, parent := some place, tied := r.tied }) ∨
    (x.settled = false ∧ chain.weight = x.chain.weight ∧ x.parent ≠ some place ∧
      revisit place r chain range x = { x with tied := true }) ∨
    (x.settled = false ∧ x.rank ≤ chain.weight.rank ∧
      (chain.weight = x.chain.weight → x.parent = some place) ∧
      revisit place r chain range x = x) := by
  unfold revisit
  by_cases hs : x.settled = true
  · exact .inl ⟨hs, if_pos hs⟩
  have hs' : x.settled = false := Bool.eq_false_iff.mpr hs
  rw [if_neg hs]
  by_cases hl : chain.weight.lt x.chain.weight = true
  · exact .inr (.inl ⟨hs', Weight.lt_iff_rank.mp hl, if_pos hl⟩)
  have hl' : x.rank ≤ chain.weight.rank := Nat.not_lt.mp fun h => hl (Weight.lt_iff_rank.mpr h)
  rw [if_neg hl]
  by_cases he : chain.weight = x.chain.weight ∧ x.parent ≠ some place
  · exact .inr (.inr (.inl ⟨hs', he.1, he.2, if_pos he⟩))
  · refine .inr (.inr (.inr ⟨hs', hl', ?_, if_neg he⟩))
    intro hw
    by_contra hp
    exact he ⟨hw, hp⟩

@[simp] theorem type_revisit : (revisit place r chain range x).type = x.type := by
  rcases revisit_cases place r chain range x with h | h | h | h <;> simp [h]

@[simp] theorem settled_revisit : (revisit place r chain range x).settled = x.settled := by
  rcases revisit_cases place r chain range x with h | h | h | h <;> simp [h]

theorem revisit_of_settled (h : x.settled = true) : revisit place r chain range x = x :=
  if_pos h

/-- A type does not get heavier. -/
theorem rank_revisit_le : (revisit place r chain range x).rank ≤ x.rank := by
  rcases revisit_cases place r chain range x with ⟨-, h⟩ | ⟨-, hlt, h⟩ | ⟨-, -, -, h⟩ | ⟨-, -, -, h⟩
  · exact Nat.le_of_eq (congrArg rank h)
  · rw [h]
    exact Nat.le_of_lt hlt
  · rw [h]
    exact Nat.le_refl _
  · exact Nat.le_of_eq (congrArg rank h)

/-- It is not heavier than the new chain. -/
theorem rank_revisit_le_chain (hs : x.settled = true → x.rank ≤ chain.weight.rank) :
    (revisit place r chain range x).rank ≤ chain.weight.rank := by
  rcases revisit_cases place r chain range x with ⟨h, h'⟩ | ⟨-, -, h⟩ | ⟨-, hw, -, h⟩ |
    ⟨-, hle, -, h⟩
  · rw [h']
    exact hs h
  · rw [h]
    exact Nat.le_refl _
  · rw [h, hw]
    exact Nat.le_refl _
  · rw [h]
    exact hle

/-- The weight is that of the old chain or of the new one. -/
theorem rank_revisit (place : Nat) (r : Reached) (chain : Chain) (range : Range) (x : Reached) :
    (revisit place r chain range x).rank = x.rank ∨
    (revisit place r chain range x).rank = chain.weight.rank := by
  rcases revisit_cases place r chain range x with ⟨-, h⟩ | ⟨-, -, h⟩ | ⟨-, -, -, h⟩ | ⟨-, -, -, h⟩
  · exact Or.inl (by rw [h])
  · exact .inr (by rw [h]; rfl)
  · exact Or.inl (by rw [h]; rfl)
  · exact Or.inl (by rw [h])

end Revisit

/-- No two places are for one type. -/
def Apart (s : Structs) (rs : List Reached) : Prop := (rs.map fun x => s.form x.type).Nodup

variable {s : Structs} {rs rs' : List Reached} {place j k : Nat} {r x y : Reached} {e : Edge}
  {range : Range}

/-- A type has one place. -/
theorem Apart.eq (h : Apart s rs) (hx : rs[j]? = some x) (hy : rs[k]? = some y)
    (hf : s.form x.type = s.form y.type) : j = k := by
  have hj : (rs.map fun x => s.form x.type)[j]? = some (s.form x.type) := by
    rw [List.getElem?_map, hx]
    rfl
  have hk : (rs.map fun x => s.form x.type)[k]? = some (s.form x.type) := by
    rw [List.getElem?_map, hy, hf]
    rfl
  have lt : j < (rs.map fun x => s.form x.type).length := by
    rw [List.length_map]
    exact (List.getElem?_eq_some_iff.mp hx).1
  exact (List.getElem?_inj lt h).mp (hj.trans hk.symm)

/-- A change that a function does not see. -/
theorem map_modify_of_eq {α β : Type} {f : α → α} {g : α → β} {l : List α} {i : Nat}
    (h : ∀ a, g (f a) = g a) : (l.modify i f).map g = l.map g := by
  refine List.ext_getElem? fun k => ?_
  rw [List.getElem?_map, List.getElem?_modify, List.getElem?_map]
  cases l[k]? with
  | none => rfl
  | some a => by_cases hik : i = k <;> simp [hik, h]

namespace Relaxes

/-- Where a place after the step comes from. -/
theorem place_cases (h : Relaxes s rs place r e range rs') (ha : Apart s rs)
    (hy : rs'[j]? = some y) :
    (rs[j]? = some y ∧ s.form y.type ≠ s.form e.destination) ∨
    (∃ x, rs[j]? = some x ∧ s.form x.type = s.form e.destination ∧
      y = revisit place r (r.chain.extend e range) range x) ∨
    (j = rs.length ∧ (∀ x ∈ rs, s.form x.type ≠ s.form e.destination) ∧
      y = ⟨e.destination, r.chain.extend e range, range, some place, r.tied, false⟩) := by
  cases h with
  | fresh h =>
    rcases Nat.lt_or_ge j rs.length with hj | hj
    · rw [List.getElem?_append_left hj] at hy
      exact .inl ⟨hy, h y (List.mem_of_getElem? hy)⟩
    · rw [List.getElem?_append_right hj] at hy
      obtain ⟨hl, hy⟩ := List.getElem?_eq_some_iff.mp hy
      simp only [List.length_cons, List.length_nil] at hl
      rw [List.getElem_singleton] at hy
      exact .inr (.inr ⟨by omega, h, hy.symm⟩)
  | @again i x hx hf =>
    rw [List.getElem?_modify] at hy
    obtain ⟨z, hz, rfl⟩ := Option.map_eq_some_iff.mp hy
    by_cases hij : i = j
    · subst hij
      obtain rfl := Option.some.inj (hz.symm.trans hx)
      rw [if_pos rfl]
      exact .inr (.inl ⟨z, hz, hf, rfl⟩)
    · rw [if_neg hij]
      refine .inl ⟨hz, fun he => hij ?_⟩
      exact ha.eq hx hz (hf.trans he.symm)

/-- Places stay, and keep what they know unless they are for the type that the conversion leads to.
-/
theorem place_stays (h : Relaxes s rs place r e range rs') (hx : rs[j]? = some x) :
    rs'[j]? = some x ∨ (s.form x.type = s.form e.destination ∧
      rs'[j]? = some (revisit place r (r.chain.extend e range) range x)) := by
  cases h with
  | fresh h =>
    rw [List.getElem?_append_left (List.getElem?_eq_some_iff.mp hx).1]
    exact .inl hx
  | @again i z hz hf =>
    rw [List.getElem?_modify, hx]
    by_cases hij : i = j
    · subst hij
      cases hz.symm.trans hx
      exact .inr ⟨hf, by simp⟩
    · exact Or.inl (by simp [hij])

/-- The type that the conversion leads to has a place. -/
theorem target (h : Relaxes s rs place r e range rs')
    (hs : ∀ x ∈ rs, x.settled = true → x.rank ≤ (r.chain.weight + e.weight).rank) :
    ∃ y ∈ rs', s.form y.type = s.form e.destination ∧
      y.rank ≤ (r.chain.weight + e.weight).rank := by
  cases h with
  | fresh h => exact ⟨_, List.mem_append_right _ (.head _), rfl, Nat.le_refl _⟩
  | @again i x hx hf =>
    refine ⟨revisit place r (r.chain.extend e range) range x, ?_, ?_, ?_⟩
    · refine List.mem_of_getElem? (i := i) ?_
      rw [List.getElem?_modify, hx]
      simp
    · rw [type_revisit]
      exact hf
    · exact rank_revisit_le_chain (hs x (List.mem_of_getElem? hx))

/-- One more conversion gives no type a second place. -/
theorem apart (h : Relaxes s rs place r e range rs') (ha : Apart s rs) : Apart s rs' := by
  cases h with
  | fresh h =>
    rw [Apart, List.map_append, List.map_singleton]
    refine List.nodup_append.mpr ⟨ha, List.pairwise_singleton _ _, ?_⟩
    intro a hm b hb
    obtain ⟨x, hx, rfl⟩ := List.mem_map.mp hm
    rw [List.mem_singleton.mp hb]
    exact h x hx
  | @again i x hx hf =>
    rw [Apart, map_modify_of_eq]
    · exact ha
    · exact fun _ => congrArg s.form type_revisit

/-- A settled type keeps its place and what is known of it. -/
theorem settled_stays (h : Relaxes s rs place r e range rs') (hs : x.settled = true)
    (hx : rs[j]? = some x) : rs'[j]? = some x := by
  rcases h.place_stays hx with hx' | ⟨-, hx'⟩
  · exact hx'
  · rwa [revisit_of_settled hs] at hx'

/-- A type after the step is an old one, one that is reached again, or the new one. -/
theorem mem_cases (h : Relaxes s rs place r e range rs') (ha : Apart s rs) (hy : y ∈ rs') :
    y ∈ rs ∨ (∃ x ∈ rs, s.form x.type = s.form e.destination ∧
      y = revisit place r (r.chain.extend e range) range x) ∨
    ((∀ x ∈ rs, s.form x.type ≠ s.form e.destination) ∧
      y = ⟨e.destination, r.chain.extend e range, range, some place, r.tied, false⟩) := by
  obtain ⟨j, hj⟩ := List.mem_iff_getElem?.mp hy
  rcases h.place_cases ha hj with ⟨hy, -⟩ | ⟨x, hx, hf, hxy⟩ | ⟨-, hfresh, hy⟩
  · exact .inl (List.mem_of_getElem? hy)
  · exact .inr (.inl ⟨x, List.mem_of_getElem? hx, hf, hxy⟩)
  · exact .inr (.inr ⟨hfresh, hy⟩)

/-- No type gets settled. -/
theorem settled_before (h : Relaxes s rs place r e range rs') (ha : Apart s rs)
    (hs : y.settled = true) (hy : rs'[j]? = some y) : rs[j]? = some y := by
  rcases h.place_cases ha hy with ⟨hy, -⟩ | ⟨x, hx, -, rfl⟩ | ⟨-, -, rfl⟩
  · exact hy
  · rw [settled_revisit] at hs
    rwa [revisit_of_settled hs]
  · cases hs

theorem mem_of_settled (h : Relaxes s rs place r e range rs') (ha : Apart s rs)
    (hs : y.settled = true) (hy : y ∈ rs') : y ∈ rs := by
  obtain ⟨j, hj⟩ := List.mem_iff_getElem?.mp hy
  exact List.mem_of_getElem? (h.settled_before ha hs hj)

/-- As many types are settled as before. -/
theorem countP_settled (h : Relaxes s rs place r e range rs') :
    rs'.countP (·.settled) = rs.countP (·.settled) := by
  cases h with
  | fresh h => simp [List.countP_append]
  | @again i x hx hf =>
    have same : (rs.modify i (revisit place r (r.chain.extend e range) range)).map
        (·.settled) = rs.map (·.settled) := map_modify_of_eq fun _ => settled_revisit
    have count : ∀ l : List Reached, l.countP (·.settled) = (l.map (·.settled)).countP id := by
      intro l
      rw [List.countP_map]
      rfl
    rw [count, same, ← count]

end Relaxes

end Reached

/-! ### The nearest type -/

namespace Reached

/-- The type is settled. -/
def settle (r : Reached) : Reached := { r with settled := true }

/-- If none is nearest, all are settled. -/
theorem nearestFrom_none : ∀ {rs : List Reached} {place : Nat}, nearestFrom place rs = none →
    ∀ x ∈ rs, x.settled = true
  | [], _, _, x, hx => by cases hx
  | q :: rs, place, h, x, hx => by
    simp only [nearestFrom] at h
    split at h
    · next hs =>
      rcases List.mem_cons.mp hx with rfl | hx
      · exact hs
      · exact nearestFrom_none h x hx
    · split at h
      · cases h
      · split at h <;> cases h

/-- By induction on the places: the lightest of those that are not settled. -/
theorem nearestFrom_spec : ∀ {rs : List Reached} {place i : Nat} {r : Reached},
    nearestFrom place rs = some (i, r) →
      (∃ j, i = place + j ∧ rs[j]? = some r) ∧ r.settled = false ∧
        ∀ x ∈ rs, x.settled = false → r.rank ≤ x.rank
  | [], _, _, _, h => by cases h
  | q :: rs, place, i, r, h => by
    have behind : ∀ {i r}, nearestFrom (place + 1) rs = some (i, r) →
        ∃ j, i = place + j ∧ (q :: rs)[j]? = some r := by
      intro i r h
      obtain ⟨⟨j, rfl, hj⟩, -⟩ := nearestFrom_spec h
      exact ⟨j + 1, by omega, hj⟩
    simp only [nearestFrom] at h
    split at h
    · next hs =>
      obtain ⟨-, hr, hmin⟩ := nearestFrom_spec h
      refine ⟨behind h, hr, fun x hx hx' => ?_⟩
      rcases List.mem_cons.mp hx with rfl | hx
      · cases hs.symm.trans hx'
      · exact hmin x hx hx'
    · next hs =>
      split at h
      · next hn =>
        cases h
        refine ⟨⟨0, rfl, rfl⟩, Bool.eq_false_iff.mpr hs, fun x hx hx' => ?_⟩
        rcases List.mem_cons.mp hx with rfl | hx
        · exact Nat.le_refl _
        · cases (nearestFrom_none hn x hx).symm.trans hx'
      · next p best hb =>
        obtain ⟨-, hr, hmin⟩ := nearestFrom_spec hb
        split at h
        · next hlt =>
          cases h
          refine ⟨behind hb, hr, fun x hx hx' => ?_⟩
          rcases List.mem_cons.mp hx with rfl | hx
          · exact Nat.le_of_lt (Weight.lt_iff_rank.mp hlt)
          · exact hmin x hx hx'
        · next hlt =>
          cases h
          have hle : q.rank ≤ best.rank :=
            Nat.not_lt.mp fun h => hlt (Weight.lt_iff_rank.mpr h)
          refine ⟨⟨0, rfl, rfl⟩, Bool.eq_false_iff.mpr hs, fun x hx hx' => ?_⟩
          rcases List.mem_cons.mp hx with rfl | hx
          · exact Nat.le_refl _
          · exact Nat.le_trans hle (hmin x hx hx')

/-- The nearest type is at its place, not settled, and no lighter one is left. -/
theorem nearest_spec {rs : List Reached} {place : Nat} {r : Reached}
    (h : nearest rs = some (place, r)) :
    rs[place]? = some r ∧ r.settled = false ∧ ∀ x ∈ rs, x.settled = false → r.rank ≤ x.rank := by
  obtain ⟨⟨j, hj, hr⟩, rest⟩ := nearestFrom_spec h
  obtain rfl : place = j := by omega
  exact ⟨hr, rest⟩

/-- Where a place comes from after one is settled. -/
theorem settle_cases {rs : List Reached} {place j : Nat} {y : Reached}
    (hy : (rs.modify place settle)[j]? = some y) :
    ∃ x, rs[j]? = some x ∧ ((j = place ∧ y = x.settle) ∨ (j ≠ place ∧ y = x)) := by
  rw [List.getElem?_modify] at hy
  obtain ⟨x, hx, rfl⟩ := Option.map_eq_some_iff.mp hy
  refine ⟨x, hx, ?_⟩
  by_cases h : place = j
  · exact .inl ⟨h.symm, if_pos h⟩
  · exact .inr ⟨Ne.symm h, if_neg h⟩

/-- Settling moves no place. -/
theorem settle_stays {rs : List Reached} {j : Nat} {x : Reached} (place : Nat)
    (hx : rs[j]? = some x) :
    (rs.modify place settle)[j]? = some (if place = j then x.settle else x) := by
  rw [List.getElem?_modify, hx]
  by_cases h : place = j <;> simp [h]

/-- A type after one is settled is that one, or it was there before. -/
theorem mem_settle {rs : List Reached} {place : Nat} {r y : Reached} (hr : rs[place]? = some r)
    (hy : y ∈ rs.modify place settle) : y = r.settle ∨ y ∈ rs := by
  obtain ⟨j, hj⟩ := List.mem_iff_getElem?.mp hy
  obtain ⟨x, hx, ⟨rfl, rfl⟩ | ⟨-, rfl⟩⟩ := settle_cases hj
  · cases hx.symm.trans hr
    exact .inl rfl
  · exact .inr (List.mem_of_getElem? hx)

/-- What a conversion does does not depend on whether its source is settled. -/
theorem Relaxes.settle {s : Structs} {rs rs' : List Reached} {place : Nat} {r : Reached} {e : Edge}
    {range : Range} (h : Relaxes s rs place r e range rs') :
    Relaxes s rs place r.settle e range rs' := by
  cases h with
  | fresh h => exact .fresh h
  | again hx hf => exact .again hx hf

/-- Settling adds one to the settled types. -/
theorem countP_settle : ∀ {rs : List Reached} {place : Nat} {r : Reached}, rs[place]? = some r →
    r.settled = false →
    (rs.modify place settle).countP (·.settled) = rs.countP (·.settled) + 1
  | [], _, _, h, _ => by cases h
  | q :: rs, 0, r, h, hs => by
    cases h
    rw [List.modify_zero_cons, List.countP_cons_of_pos rfl, List.countP_cons_of_neg]
    rw [hs]
    exact Bool.false_ne_true
  | q :: rs, place + 1, r, h, hs => by
    have ih := countP_settle (show rs[place]? = some r from h) hs
    rw [List.modify_succ_cons, List.countP_cons, List.countP_cons, ih]
    omega

end Reached

/-! ### States of a search -/

namespace CastTable

section States

variable (t : CastTable) (s : Structs) (R : StructRef → Prop) (q : CastQuery) (source : Ty)
  (range : Range)

/-- The conversion can be taken out of the type. -/
structure Takes (x : Reached) (e : Edge) : Prop where
  offered : t.Offers s x.type e
  usable : e.usable x.range q.explicit = true
  within : (x.chain.weight + e.weight).rank ≤ q.limit.rank

/-- Every conversion that can be taken out of a settled type was taken. -/
def Done (rs : List Reached) (taken : List (Nat × Edge)) : Prop :=
  ∀ i x e, rs[i]? = some x → x.settled = true → t.Takes s q x e → (i, e) ∈ taken

/-- The states of a search, each with the conversions that were taken so far.  Conversions are taken
out of the heaviest of the settled types, which is the last one; those out of the others were taken
before. -/
inductive Explored : List Reached → List (Nat × Edge) → Prop
  | start : Explored [⟨source, .identity, range, none, false, false⟩] []
  | settle {rs : List Reached} {taken : List (Nat × Edge)} {place : Nat} {r : Reached}
      (h : Explored rs taken) (done : t.Done s q rs taken)
      (hn : Reached.nearest rs = some (place, r)) (hd : s.form r.type ≠ s.form q.destination) :
      Explored (rs.modify place Reached.settle) taken
  | take {rs rs' : List Reached} {taken : List (Nat × Edge)} {place : Nat} {r : Reached} {e : Edge}
      {range' : Range} (h : Explored rs taken) (hr : rs[place]? = some r) (hs : r.settled = true)
      (last : ∀ x ∈ rs, x.settled = true → x.rank ≤ r.rank)
      (others : ∀ i x e, i ≠ place → rs[i]? = some x → x.settled = true → t.Takes s q x e →
        (i, e) ∈ taken)
      (ht : t.Takes s q r e) (hrange : s.rangeAfter e r.range = .ok range')
      (hrel : Reached.Relaxes s rs place r e range' rs') : Explored rs' ((place, e) :: taken)

/-- What is known in every state. -/
structure Charted (rs : List Reached) (taken : List (Nat × Edge)) : Prop where
  sound : ∀ x ∈ rs, x.Sound s (Ty.Over R) s.form
    (Edge.Available t.edges t.families q.explicit) source range
  within : ∀ x ∈ rs, x.rank ≤ q.limit.rank
  apart : Reached.Apart s rs
  ordered : ∀ x ∈ rs, ∀ y ∈ rs, x.settled = true → y.settled = false → x.rank ≤ y.rank
  start : ∃ x, rs[0]? = some x ∧ s.form x.type = s.form source ∧ x.chain = .identity
  away : ∀ x ∈ rs, x.settled = true → s.form x.type ≠ s.form q.destination
  taken : ∀ i e, (i, e) ∈ taken → ∃ r, rs[i]? = some r ∧ r.settled = true ∧ t.Takes s q r e ∧
    ∃ x ∈ rs, s.form x.type = s.form e.destination ∧ x.rank ≤ (r.chain.weight + e.weight).rank

end States

variable {t : CastTable} {s : Structs} {R : StructRef → Prop} {q : CastQuery} {source : Ty}
  {range : Range} {rs : List Reached} {taken : List (Nat × Edge)}

namespace Charted

/-- What is known stays known when the nearest type is settled. -/
theorem settle {place : Nat} {r : Reached} (h : t.Charted s R q source range rs taken)
    (hn : Reached.nearest rs = some (place, r)) (hd : s.form r.type ≠ s.form q.destination) :
    t.Charted s R q source range (rs.modify place Reached.settle) taken := by
  obtain ⟨hr, hs, hmin⟩ := Reached.nearest_spec hn
  have hmem := List.mem_of_getElem? hr
  constructor
  case sound =>
    intro y hy
    rcases Reached.mem_settle hr hy with rfl | hy
    · obtain ⟨mem, linked, key_eq, range_eq, weight_eq⟩ := h.sound r hmem
      exact ⟨mem, linked, key_eq, range_eq, weight_eq⟩
    · exact h.sound y hy
  case within =>
    intro y hy
    rcases Reached.mem_settle hr hy with rfl | hy
    · exact h.within r hmem
    · exact h.within y hy
  case apart =>
    rw [Reached.Apart, Reached.map_modify_of_eq]
    · exact h.apart
    · exact fun _ => rfl
  case ordered =>
    intro y hy z hz hys hzs
    rcases Reached.mem_settle hr hz with rfl | hz
    · cases hzs
    · rcases Reached.mem_settle hr hy with rfl | hy
      · exact hmin z hz hzs
      · exact h.ordered y hy z hz hys hzs
  case start =>
    obtain ⟨x, hx, hf, hc⟩ := h.start
    refine ⟨_, Reached.settle_stays place hx, ?_⟩
    split <;> exact ⟨hf, hc⟩
  case away =>
    intro y hy hys
    rcases Reached.mem_settle hr hy with rfl | hy
    · exact hd
    · exact h.away y hy hys
  case taken =>
    intro i e hie
    obtain ⟨a, ha, has, hta, x, hx, hf, hle⟩ := h.taken i e hie
    have hne : place ≠ i := by
      rintro rfl
      obtain rfl := Option.some.inj (ha.symm.trans hr)
      cases has.symm.trans hs
    obtain ⟨j, hj⟩ := List.mem_iff_getElem?.mp hx
    have hj' := Reached.settle_stays place hj
    refine ⟨a, by rw [Reached.settle_stays place ha, if_neg hne], has, hta, _,
      List.mem_of_getElem? hj', ?_⟩
    split <;> exact ⟨hf, hle⟩

/-- What is known is known after a conversion is taken: the new chain is sound, and it is not
lighter than what is settled. -/
theorem take {rs' : List Reached} {place : Nat} {r : Reached} {e : Edge} {range' : Range}
    (hR : s.Tells R) (hg : t.Grouped s R) (h : t.Charted s R q source range rs taken)
    (hr : rs[place]? = some r) (hs : r.settled = true)
    (last : ∀ x ∈ rs, x.settled = true → x.rank ≤ r.rank) (ht : t.Takes s q r e)
    (hrange : s.rangeAfter e r.range = .ok range')
    (hrel : Reached.Relaxes s rs place r e range' rs') :
    t.Charted s R q source range rs' ((place, e) :: taken) := by
  have hsound := h.sound r (List.mem_of_getElem? hr)
  obtain ⟨hsource, among, hdest⟩ := hg.of_offers hR hsound.mem ht.offered
  have hnew :=
    hsound.extend hsource ⟨among, r.range, ht.usable⟩ hdest hrange (some place) r.tied false
  have heavier : ∀ x ∈ rs, x.settled = true → x.rank ≤ (r.chain.weight + e.weight).rank :=
    fun x hx hxs => Nat.le_trans (last x hx hxs) (Weight.rank_le_add _ _)
  constructor
  case sound =>
    intro y hy
    rcases hrel.mem_cases h.apart hy with hy | ⟨x, hx, hf, rfl⟩ | ⟨-, rfl⟩
    · exact h.sound y hy
    · have hx := h.sound x hx
      exact hx.revisit ⟨hx.mem, hnew.linked, hnew.key_eq.trans hf.symm, hnew.range_eq,
        hnew.weight_eq⟩
    · exact hnew
  case within =>
    intro y hy
    rcases hrel.mem_cases h.apart hy with hy | ⟨x, hx, -, rfl⟩ | ⟨-, rfl⟩
    · exact h.within y hy
    · exact Nat.le_trans Reached.rank_revisit_le (h.within x hx)
    · exact ht.within
  case apart => exact hrel.apart h.apart
  case ordered =>
    intro y hy z hz hys hzs
    have hy := hrel.mem_of_settled h.apart hys hy
    rcases hrel.mem_cases h.apart hz with hz | ⟨x, hx, -, rfl⟩ | ⟨-, rfl⟩
    · exact h.ordered y hy z hz hys hzs
    · rw [Reached.settled_revisit] at hzs
      rcases Reached.rank_revisit place r (r.chain.extend e range') range' x with hrank | hrank
      · rw [hrank]
        exact h.ordered y hy x hx hys hzs
      · rw [hrank]
        exact heavier y hy hys
    · exact heavier y hy hys
  case start =>
    obtain ⟨x, hx, hf, hc⟩ := h.start
    rcases hrel.place_stays hx with hx' | ⟨-, hx'⟩
    · exact ⟨x, hx', hf, hc⟩
    · refine ⟨_, hx', by rw [Reached.type_revisit]; exact hf, ?_⟩
      rcases Reached.revisit_cases place r (r.chain.extend e range') range' x with
        ⟨-, hv⟩ | ⟨-, hlt, -⟩ | ⟨-, -, -, hv⟩ | ⟨-, -, -, hv⟩
      · rw [hv, hc]
      · -- nothing is lighter than no conversion
        rw [Reached.rank, hc, Chain.identity, Weight.rank_zero] at hlt
        exact absurd hlt (Nat.not_lt_zero _)
      · rw [hv, hc]
      · rw [hv, hc]
  case away => exact fun y hy hys => h.away y (hrel.mem_of_settled h.apart hys hy) hys
  case taken =>
    intro i e' hie
    rcases List.mem_cons.mp hie with hie | hie
    · cases hie
      exact ⟨r, hrel.settled_stays hs hr, hs, ht, hrel.target heavier⟩
    · obtain ⟨a, ha, has, hta, x, hx, hf, hle⟩ := h.taken i e' hie
      obtain ⟨j, hj⟩ := List.mem_iff_getElem?.mp hx
      refine ⟨a, hrel.settled_stays has ha, has, hta, ?_⟩
      rcases hrel.place_stays hj with hj' | ⟨-, hj'⟩
      · exact ⟨x, List.mem_of_getElem? hj', hf, hle⟩
      · exact ⟨_, List.mem_of_getElem? hj', by rw [Reached.type_revisit]; exact hf,
          Nat.le_trans Reached.rank_revisit_le hle⟩

end Charted

/-- All of this is known in every state of a search. -/
theorem Explored.charted (hR : s.Tells R) (hg : t.Grouped s R) (hsource : source.Over R)
    (h : t.Explored s q source range rs taken) : t.Charted s R q source range rs taken := by
  induction h with
  | start =>
    constructor
    case sound =>
      intro x hx
      obtain rfl := List.mem_singleton.mp hx
      exact ⟨hsource, trivial, rfl, rfl, rfl⟩
    case within =>
      intro x hx
      obtain rfl := List.mem_singleton.mp hx
      rw [Reached.rank, Chain.identity, Weight.rank_zero]
      exact Nat.zero_le _
    case apart => exact List.pairwise_singleton _ _
    case ordered =>
      intro x hx y hy hxs
      obtain rfl := List.mem_singleton.mp hx
      cases hxs
    case start => exact ⟨_, rfl, rfl, rfl⟩
    case away =>
      intro x hx hxs
      obtain rfl := List.mem_singleton.mp hx
      cases hxs
    case taken => exact fun i e hie => nomatch hie
  | settle h done hn hd ih => exact ih.settle hn hd
  | take h hr hs last others ht hrange hrel ih => exact ih.take hR hg hr hs last ht hrange hrel

/-- What holds of the source and is kept by the conversions that can be taken holds of every type
that is reached.  A type that is reached again keeps its place and may get the new range. -/
theorem Explored.all {P : Ty → Range → Prop} (hR : s.Tells R) (hg : t.Grouped s R)
    (hsource : source.Over R) (start : P source range)
    (same : ∀ {a b : Ty} {r r' : Range}, P a r → P b r' → s.form a = s.form b → P a r')
    (step : ∀ {a : Ty} {e : Edge} {r r' : Range}, a.Over R → P a r → t.Offers s a e →
      s.rangeAfter e r = .ok r' → P e.destination r')
    (h : t.Explored s q source range rs taken) : ∀ x ∈ rs, P x.type x.range := by
  induction h with
  | start =>
    intro x hx
    obtain rfl := List.mem_singleton.mp hx
    exact start
  | @settle _ _ _ r h _ hn _ ih =>
    intro y hy
    have hr := (Reached.nearest_spec hn).1
    rcases Reached.mem_settle hr hy with rfl | hy
    · exact ih r (List.mem_of_getElem? hr)
    · exact ih y hy
  | @take rs rs' taken place r e range' h hr _ _ _ ht hrange hrel ih =>
    have hc := h.charted hR hg hsource
    have hmem := List.mem_of_getElem? hr
    have new : P e.destination range' := step (hc.sound r hmem).mem (ih r hmem) ht.offered hrange
    intro y hy
    rcases hrel.mem_cases hc.apart hy with hy | ⟨x, hx, hf, rfl⟩ | ⟨-, rfl⟩
    · exact ih y hy
    · have old := ih x hx
      rcases Reached.revisit_cases place r (r.chain.extend e range') range' x with
        ⟨-, hv⟩ | ⟨-, -, hv⟩ | ⟨-, -, -, hv⟩ | ⟨-, -, -, hv⟩ <;> rw [hv]
      · exact old
      · exact same old new hf
      · exact old
      · exact old
    · exact new

end CastTable

/-! ### Running -/

namespace Reached

variable {s : Structs} {R : StructRef → Prop}

/-- The place of a type is found if it has one. -/
theorem placeFrom_of_tells (hR : s.Tells R) {a : Ty} (ha : a.Over R) :
    ∀ {rs : List Reached} (place : Nat), (∀ x ∈ rs, x.type.Over R) →
      ∃ o, (placeFrom s a place rs).outcome = .ok o ∧
        (o = none → ∀ x ∈ rs, s.form x.type ≠ s.form a)
  | [], _, _ => ⟨none, rfl, by simp⟩
  | r :: rs, place, hrs => by
    obtain ⟨c, hc, hiff⟩ := Structs.compareAlike_outcome hR ha (hrs r (.head _))
    cases c with
    | true => exact ⟨some place, Traced.bind_ok.mpr ⟨true, hc, rfl⟩, by simp⟩
    | false =>
      obtain ⟨o, ho, hnone⟩ := placeFrom_of_tells hR ha (place + 1)
        fun x hx => hrs x (.tail _ hx)
      refine ⟨o, Traced.bind_ok.mpr ⟨false, hc, ho⟩, fun h x hx => ?_⟩
      rcases List.mem_cons.mp hx with rfl | hx
      · exact fun hf => absurd (hiff.mpr hf.symm) (by simp)
      · exact hnone h x hx

/-- Taking a conversion succeeds, and changes the types reached as `Relaxes` says. -/
theorem relax_of_tells (hR : s.Tells R) {rs : List Reached} {e : Edge}
    (hrs : ∀ x ∈ rs, x.type.Over R) (he : e.destination.Over R) (place : Nat) (r : Reached)
    (range : Range) :
    ∃ rs', (relax s rs place r e (r.chain.weight + e.weight) range).outcome = .ok rs' ∧
      Relaxes s rs place r e range rs' := by
  obtain ⟨o, ho, hnone⟩ := placeFrom_of_tells hR he 0 hrs
  cases o with
  | none => exact ⟨_, Traced.bind_ok.mpr ⟨none, ho, rfl⟩, .fresh (hnone rfl)⟩
  | some i =>
    obtain ⟨j, x, hj, hx, hc⟩ := placeFrom_outcome ho
    obtain rfl : i = j := by omega
    have hf := (Structs.compare_eq_true_iff hR he (hrs x (List.mem_of_getElem? hx))).mp hc
    exact ⟨_, Traced.bind_ok.mpr ⟨some i, ho, rfl⟩, .again hx hf.symm⟩

end Reached

namespace Form

/-- What dropping `mut` behind a pointer makes of a type. -/
def loosened : Form → Form
  | .pointer f p => .pointer f (p.withFlags { p.flags with mutable := false })
  | form => form

theorem flags_loosened (a : Form) : a.loosened.flags = a.flags := by
  cases a <;> rfl

theorem flags_withFlags (f : Flags) (a : Form) : (a.withFlags f).flags = f := by
  cases a <;> rfl

end Form

namespace CastTable

/-- The forms of the types that a search can reach: the source and the types that registered
conversions lead to, each also loaded and without `mut` behind a pointer, and those that families
lead to. -/
def reach (t : CastTable) (s : Structs) (source : Ty) : List Form :=
  (source :: t.edges.map (·.destination)).flatMap (fun x =>
    [s.form x, (s.form x).withFlags .none, ((s.form x).withFlags .none).loosened]) ++
  t.families.filterMap fun
    | .dropMutable => none
    | .pointerToBool b => some (s.form b)

variable {t : CastTable} {s : Structs} {R : StructRef → Prop} {q : CastQuery} {source : Ty}
  {range : Range} {rs : List Reached} {taken : List (Nat × Edge)}

/-- There are no more such forms than the bound says. -/
theorem length_reach (t : CastTable) (s : Structs) (source : Ty) :
    (t.reach s source).length ≤ t.reachBound := by
  have families := List.length_filterMap_le (fun
    | .dropMutable => none
    | .pointerToBool b => some (s.form b)) t.families
  have types : ∀ ts : List Ty, (ts.flatMap fun x => [s.form x, (s.form x).withFlags .none,
      ((s.form x).withFlags .none).loosened]).length = 3 * ts.length := by
    intro ts
    induction ts with
    | nil => rfl
    | cons x ts ih =>
      rw [List.flatMap_cons, List.length_append, ih, List.length_cons]
      simp only [List.length_cons, List.length_nil]
      omega
  rw [reach, List.length_append, types, List.length_cons, List.length_map, reachBound]
  omega

/-- A form that can be reached is that of a type in the table, or of one that is not storage. -/
theorem reach_cases (hg : t.Grouped s R) {a : Form} (h : a ∈ t.reach s source) :
    (∃ x ∈ source :: t.edges.map (·.destination), a = s.form x ∨ a = (s.form x).withFlags .none ∨
      a = ((s.form x).withFlags .none).loosened) ∨ ∃ k n m, a = .scalar .none k n m := by
  rcases List.mem_append.mp h with h | h
  · obtain ⟨x, hx, ha⟩ := List.mem_flatMap.mp h
    simp only [List.mem_cons, List.not_mem_nil, or_false] at ha
    exact .inl ⟨x, hx, ha⟩
  · obtain ⟨f, hf, ha⟩ := List.mem_filterMap.mp h
    cases f with
    | dropMutable => cases ha
    | pointerToBool b =>
      obtain ⟨c, rfl⟩ := hg.plain b hf
      exact .inr ⟨_, _, _, (Option.some.inj ha).symm⟩

theorem mem_reach {x : Ty} (hx : x ∈ source :: t.edges.map (·.destination)) {a : Form}
    (h : a = s.form x ∨ a = (s.form x).withFlags .none ∨
      a = ((s.form x).withFlags .none).loosened) :
    a ∈ t.reach s source := by
  refine List.mem_append_left _ (List.mem_flatMap.mpr ⟨x, hx, ?_⟩)
  simpa using h

/-- Conversions stay among the types that can be reached. -/
theorem reach_of_offers (hg : t.Grouped s R) {a : Ty} {e : Edge}
    (hreach : s.form a ∈ t.reach s source) (h : t.Offers s a e) :
    s.form e.destination ∈ t.reach s source := by
  rcases h with ⟨g, hg', -, he⟩ | ⟨f, hf, hfe⟩ | ⟨hf, rfl⟩
  · refine mem_reach (x := e.destination) (.tail _ ?_) (.inl rfl)
    exact List.mem_map_of_mem (Grouped.mem_edges hg' he)
  · obtain ⟨stamp, p, rfl, -, ⟨hm, hd⟩ | rfl⟩ := CastFamily.edge?_cases hfe
    · rw [hd, show s.form (.pointerTo p.notMutable) =
          (s.form (.pointer .none stamp p)).loosened by
        simp only [Ty.pointerTo, Ty.notMutable, Structs.form, Structs.form_withFlags, Form.loosened,
          Structs.flags_form]]
      rcases reach_cases hg hreach with ⟨x, hx, h | h | h⟩ | ⟨k, n, m, h⟩
      · refine mem_reach hx (.inr (.inr ?_))
        rw [← h]
        rfl
      · exact mem_reach hx (.inr (.inr (congrArg Form.loosened h)))
      · -- what is behind a loosened pointer is not `mut`
        exfalso
        cases hx : (s.form x).withFlags .none with
        | pointer f p' =>
          rw [hx, Form.loosened] at h
          injection h with _ h
          have := congrArg Form.flags h
          rw [Structs.flags_form, Form.flags_withFlags] at this
          rw [Ty.isMutable, this] at hm
          cases hm
        | scalar _ _ _ _ | function _ _ _ | struct _ _ _ =>
          rw [hx] at h
          cases h
      · cases h
    · exact List.mem_append_right _ (List.mem_filterMap.mpr ⟨_, hf, rfl⟩)
  · rw [Edge.decay, Ty.bare, Structs.form_withFlags]
    have flags : (s.form a).flags ≠ .none := by
      rw [Structs.flags_form]
      intro h
      rw [Ty.isFlagged, Ty.isReference, Ty.isMutable, h] at hf
      cases hf
    rcases reach_cases hg hreach with ⟨x, hx, h | h | h⟩ | ⟨k, n, m, h⟩
    · refine mem_reach hx (.inr (.inl ?_))
      rw [h]
    · exact absurd (by rw [h, Form.flags_withFlags]) flags
    · exact absurd (by rw [h, Form.flags_loosened, Form.flags_withFlags]) flags
    · exact absurd (by rw [h, Form.flags]) flags

/-- Every type that was reached is among them. -/
theorem Explored.reach (hR : s.Tells R) (hg : t.Grouped s R) (hsource : source.Over R)
    (h : t.Explored s q source range rs taken) : ∀ x ∈ rs, s.form x.type ∈ t.reach s source :=
  h.all (P := fun a _ => s.form a ∈ t.reach s source) hR hg hsource
    (mem_reach (.head _) (.inl rfl)) (fun ha _ _ => ha)
    fun _ ha ho _ => reach_of_offers hg ha ho

/-- So no state has more places than the bound says. -/
theorem Explored.length_le (hR : s.Tells R) (hg : t.Grouped s R) (hsource : source.Over R)
    (h : t.Explored s q source range rs taken) : rs.length ≤ t.reachBound := by
  have sub : (rs.map fun x => s.form x.type) ⊆ t.reach s source := by
    intro a ha
    obtain ⟨x, hx, rfl⟩ := List.mem_map.mp ha
    exact h.reach hR hg hsource x hx
  have := ((h.charted hR hg hsource).apart.subperm sub).length_le
  rw [List.length_map] at this
  exact Nat.le_trans this (t.length_reach s source)

/-- Conversions that can be taken tell the range of their result. -/
def Ranged (t : CastTable) (s : Structs) (q : CastQuery) (source : Ty) (range : Range) : Prop :=
  ∀ rs taken, t.Explored s q source range rs taken → ∀ x ∈ rs, ∀ e, t.Takes s q x e →
    ∃ range', s.rangeAfter e x.range = .ok range'

/-- Taking all conversions out of the type that was settled last. By induction on the conversions:
every state on the way is one of the search, and no other type gets settled. -/
theorem expand_explored (hR : s.Tells R) (hg : t.Grouped s R) (hsource : source.Over R)
    (hrange : t.Ranged s q source range) {place : Nat} {r : Reached} :
    ∀ {es : List Edge} {rs : List Reached} {taken : List (Nat × Edge)},
      t.Explored s q source range rs taken → rs[place]? = some r.settle →
      (∀ x ∈ rs, x.settled = true → x.rank ≤ r.rank) →
      (∀ i x e, i ≠ place → rs[i]? = some x → x.settled = true → t.Takes s q x e →
        (i, e) ∈ taken) →
      (∀ e ∈ es, t.Offers s r.type e) →
      ∃ rs' taken', (expand s q place r es rs).outcome = .ok rs' ∧
        t.Explored s q source range rs' taken' ∧ taken ⊆ taken' ∧
        (∀ e ∈ es, t.Takes s q r e → (place, e) ∈ taken') ∧
        (∀ (j : Nat) (x : Reached), x.settled = true → rs'[j]? = some x → rs[j]? = some x) ∧
        rs'.countP (·.settled) = rs.countP (·.settled)
  | [], rs, taken, h, _, _, _, _ =>
    ⟨rs, taken, rfl, h, fun _ h => h, by simp, fun _ _ _ h => h, rfl⟩
  | e :: es, rs, taken, h, hr, last, others, hes => by
    have hc := h.charted hR hg hsource
    have hmem := List.mem_of_getElem? hr
    have hes' : ∀ e ∈ es, t.Offers s r.type e := fun e he => hes e (.tail _ he)
    by_cases htake : t.Takes s q r e
    · have htake' : t.Takes s q r.settle e := ⟨htake.offered, htake.usable, htake.within⟩
      obtain ⟨range', hrange'⟩ := hrange rs taken h r.settle hmem e htake'
      obtain ⟨-, -, hdest⟩ := hg.of_offers hR (hc.sound _ hmem).mem htake.offered
      obtain ⟨rs₁, h₁, hrel⟩ := Reached.relax_of_tells hR (fun x hx => (hc.sound x hx).mem) hdest
        place r range'
      have hrel := hrel.settle
      have hx₁ := Explored.take h hr rfl last others htake' hrange' hrel
      have last₁ : ∀ x ∈ rs₁, x.settled = true → x.rank ≤ r.rank := fun x hx hxs =>
        last x (hrel.mem_of_settled hc.apart hxs hx) hxs
      have others₁ : ∀ i x e', i ≠ place → rs₁[i]? = some x → x.settled = true →
          t.Takes s q x e' → (i, e') ∈ (place, e) :: taken := by
        intro i x e' hi hx hxs ht
        exact List.mem_cons_of_mem _
          (others i x e' hi (hrel.settled_before hc.apart hxs hx) hxs ht)
      obtain ⟨rs', taken', hrun, hx', hsub, hall, hback, hcount⟩ :=
        expand_explored hR hg hsource hrange hx₁ (hrel.settled_stays rfl hr) last₁ others₁ hes'
      refine ⟨rs', taken', ?_, hx', ?_, ?_, ?_, hcount.trans hrel.countP_settled⟩
      · rw [expand, if_pos]
        · exact Traced.bind_ok.mpr ⟨range', hrange',
            Traced.bind_ok.mpr ⟨rs₁, h₁, hrun⟩⟩
        · rw [htake.usable, Bool.true_and, Weight.le_iff_rank]
          exact htake.within
      · exact fun p hp => hsub (.tail _ hp)
      · intro e' he' ht
        rcases List.mem_cons.mp he' with rfl | he'
        · exact hsub (.head _)
        · exact hall e' he' ht
      · intro j x hxs hx
        exact hrel.settled_before hc.apart hxs (hback j x hxs hx)
    · obtain ⟨rs', taken', hrun, hx', hsub, hall, hback, hcount⟩ :=
        expand_explored hR hg hsource hrange h hr last others hes'
      refine ⟨rs', taken', ?_, hx', hsub, ?_, hback, hcount⟩
      · rw [expand, if_neg]
        · exact hrun
        · rw [Bool.and_eq_true, Weight.le_iff_rank]
          exact fun h => htake ⟨hes e (.head _), h.1, h.2⟩
      · intro e' he' ht
        rcases List.mem_cons.mp he' with rfl | he'
        · exact absurd ht htake
        · exact hall e' he' ht

/-- How a search ends: at the nearest type, which is the one looked for, or with nothing left. -/
inductive Ends (s : Structs) (q : CastQuery) (rs : List Reached) : Found → Prop
  | found {place : Nat} {r : Reached} (hn : Reached.nearest rs = some (place, r))
      (hd : s.form r.type = s.form q.destination) : Ends s q rs (.chain r.chain r.tied)
  | exhausted (hall : ∀ x ∈ rs, x.settled = true) : Ends s q rs .unreachable

/-- By induction on the rounds that are left: each settles one more type, and there are no more
types than rounds. -/
theorem searchFrom_explored (hR : s.Tells R) (hg : t.Grouped s R) (hsource : source.Over R)
    (hdest : q.destination.Over R) (hrange : t.Ranged s q source range) :
    ∀ {n : Nat} {rs : List Reached} {taken : List (Nat × Edge)},
      t.Explored s q source range rs taken → t.Done s q rs taken →
      t.reachBound ≤ rs.countP (·.settled) + n →
      ∃ rs' taken' found, (t.searchFrom s q n rs).outcome = .ok found ∧
        t.Explored s q source range rs' taken' ∧ t.Done s q rs' taken' ∧ Ends s q rs' found
  | 0, rs, taken, h, done, hn => by
    -- all the places there can be are settled
    have hle := h.length_le hR hg hsource
    have hall : rs.countP (·.settled) = rs.length :=
      Nat.le_antisymm List.countP_le_length (Nat.le_trans hle hn)
    exact ⟨rs, taken, .unreachable, rfl, h, done, .exhausted (List.countP_eq_length.mp hall)⟩
  | n + 1, rs, taken, h, done, hn => by
    have hc := h.charted hR hg hsource
    cases hnear : Reached.nearest rs with
    | none =>
      refine ⟨rs, taken, .unreachable, ?_, h, done, .exhausted (Reached.nearestFrom_none hnear)⟩
      rw [searchFrom, hnear]
      rfl
    | some found =>
      obtain ⟨place, r⟩ := found
      obtain ⟨hr, hs, hmin⟩ := Reached.nearest_spec hnear
      have hmem := List.mem_of_getElem? hr
      have hover := (hc.sound r hmem).mem
      obtain ⟨c, hcmp, hiff⟩ := Structs.compare_outcome hR hover hdest
      cases c with
      | true =>
        refine ⟨rs, taken, _, ?_, h, done, .found hnear (hiff.mp rfl)⟩
        rw [searchFrom, hnear]
        exact Traced.bind_ok.mpr ⟨true, hcmp, rfl⟩
      | false =>
        have hd : s.form r.type ≠ s.form q.destination := fun h =>
          absurd (hiff.mpr h) (by simp)
        have h₁ := Explored.settle h done hnear hd
        have hr₁ : (rs.modify place Reached.settle)[place]? = some r.settle := by
          rw [Reached.settle_stays place hr, if_pos rfl]
        have last : ∀ x ∈ rs.modify place Reached.settle, x.settled = true →
            x.rank ≤ r.rank := by
          intro x hx hxs
          rcases Reached.mem_settle hr hx with rfl | hx
          · exact Nat.le_refl _
          · exact hc.ordered x hx r hmem hxs hs
        obtain ⟨es, hes, hoffers⟩ := outgoing_of_tells hR hg hover
        have others : ∀ i x e, i ≠ place → (rs.modify place Reached.settle)[i]? = some x →
            x.settled = true → t.Takes s q x e → (i, e) ∈ taken := by
          intro i x e hi hx hxs ht
          obtain ⟨z, hz, ⟨rfl, -⟩ | ⟨-, rfl⟩⟩ := Reached.settle_cases hx
          · exact absurd rfl hi
          · exact done i x e hz hxs ht
        obtain ⟨rs', taken', hrun, h', hsub, htook, hback, hcount⟩ :=
          expand_explored hR hg hsource hrange h₁ hr₁ last others fun e he =>
            (hoffers e).mp he
        have done' : t.Done s q rs' taken' := by
          intro i x e hx hxs ht
          obtain ⟨z, hz, ⟨rfl, rfl⟩ | ⟨hne, rfl⟩⟩ := Reached.settle_cases (hback i x hxs hx)
          · cases hz.symm.trans hr
            exact htook e ((hoffers e).mpr ht.offered) ⟨ht.offered, ht.usable, ht.within⟩
          · exact hsub (done i x e hz hxs ht)
        have hn' : t.reachBound ≤ rs'.countP (·.settled) + n := by
          rw [hcount, Reached.countP_settle hr hs]
          omega
        obtain ⟨rs'', taken'', found, hfound, rest⟩ :=
          searchFrom_explored hR hg hsource hdest hrange h' done' hn'
        refine ⟨rs'', taken'', found, ?_, rest⟩
        rw [searchFrom, hnear]
        exact Traced.bind_ok.mpr ⟨false, hcmp, Traced.bind_ok.mpr
          ⟨es, hes, Traced.bind_ok.mpr ⟨rs', hrun, hfound⟩⟩⟩

/-- **A search runs to its end**: it gives an answer, and what it says is read off a state in which
every conversion out of a settled type was taken. -/
theorem search_explored (hR : s.Tells R) (hg : t.Grouped s R) (hsource : source.Over R)
    (hdest : q.destination.Over R) (hrange : t.Ranged s q source range) :
    ∃ rs taken found, (t.search s source range q).outcome = .ok found ∧
      t.Explored s q source range rs taken ∧ t.Done s q rs taken ∧ Ends s q rs found := by
  refine searchFrom_explored hR hg hsource hdest hrange .start ?_ (Nat.le_add_left _ _)
  intro i x e hx hxs
  obtain rfl := List.mem_singleton.mp (List.mem_of_getElem? hx)
  cases hxs

end CastTable

end Gauge
