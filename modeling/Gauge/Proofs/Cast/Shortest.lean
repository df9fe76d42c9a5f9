import Gauge.Proofs.Builtin
import Gauge.Proofs.Cast.Explore
import Mathlib.Data.List.Induction

/-!
# Proofs — the cheapest chain

Where the conversions that may be taken do not depend on ranges, the search for a chain is a search
for a shortest route in the graph of types.  Every route is covered by the types reached so far
(`CastTable.Charted.covers`), so the chain that is found is the lightest of all; and it is tied
exactly if another route through other types is as light, since a type inherits the ties of the
types before it (`CastTable.Explored.ties`, `CastTable.Charted.tied_iff`).

Main statement: `CastTable.search_shortest`.
-/

namespace Gauge

/-! ### Routes -/

namespace Edge

/-- What some conversions weigh together. -/
def total (p : List Edge) : Weight := p.foldl (fun w e => w + e.weight) .zero

theorem total_append_singleton (p : List Edge) (e : Edge) :
    total (p ++ [e]) = total p + e.weight := by
  rw [total, List.foldl_append]
  rfl

/-- Conversions of which `P` holds, each from where the one before it ends. -/
inductive Route (s : Structs) (P : Edge → Prop) (source : Ty) : List Edge → Ty → Prop
  | nil : Route s P source [] source
  | snoc {p : List Edge} {a : Ty} {e : Edge} (h : Route s P source p a) (he : P e)
      (hf : s.form e.source = s.form a) : Route s P source (p ++ [e]) e.destination

/-- The types that conversions lead through, from the source on. -/
def visits (s : Structs) (source : Ty) (p : List Edge) : List Form :=
  s.form source :: p.map fun e => s.form e.destination

variable {s : Structs} {P : Edge → Prop} {source a : Ty} {p : List Edge}

theorem visits_append_singleton (e : Edge) :
    visits s source (p ++ [e]) = visits s source p ++ [s.form e.destination] := by
  rw [visits, List.map_append]
  rfl

theorem Route.getLast?_visits (h : Route s P source p a) :
    (visits s source p).getLast? = some (s.form a) := by
  cases h with
  | nil => rfl
  | snoc h he hf => rw [visits_append_singleton, List.getLast?_concat]

/-- Two routes to a type, both of the given weight, that lead through different types. -/
def Forks (s : Structs) (P : Edge → Prop) (source a : Ty) (w : Weight) : Prop :=
  ∃ p b p' b', Route s P source p b ∧ Route s P source p' b' ∧ s.form b = s.form a ∧
    s.form b' = s.form a ∧ total p = w ∧ total p' = w ∧ visits s source p ≠ visits s source p'

/-- The costs along routes within the limit add up exactly. -/
def Unsaturated (s : Structs) (P : Edge → Prop) (source : Ty) (limit : Weight) : Prop :=
  ∀ p b, Route s P source p b → (total p).le limit = true →
    (total p).cost.toNat = (p.map fun e => e.weight.cost.toNat).sum

/-- Along a route that goes on, the cost of the next conversion is added exactly. -/
theorem Unsaturated.cost_add {limit : Weight} (hexact : Unsaturated s P source limit) {e : Edge}
    (h : Route s P source p a) (he : P e) (hf : s.form e.source = s.form a)
    (hw : (total p + e.weight).rank ≤ limit.rank) :
    (total p + e.weight).cost.toNat = (total p).cost.toNat + e.weight.cost.toNat := by
  have whole := hexact _ _ (h.snoc he hf) (by
    rw [total_append_singleton]
    exact Weight.le_iff_rank.mpr hw)
  have part := hexact _ _ h
    (Weight.le_iff_rank.mpr (Nat.le_trans (Weight.rank_le_add _ _) hw))
  rw [total_append_singleton, List.map_append, List.sum_append] at whole
  simpa [part] using whole

end Edge

/-- The range after some conversions. -/
def Structs.rangeAlong (s : Structs) (range : Range) (p : List Edge) : Except Fault Range :=
  p.foldlM (fun r e => s.rangeAfter e r) range

namespace Step

variable {s : Structs} {P : Edge → Prop} {source : Ty} {range : Range}

/-- Linked steps follow a route, and record the ranges along it. -/
theorem Linked.route {steps : List Step} (h : Linked s.form s P source range steps) :
    Edge.Route s P source (steps.map (·.edge)) (typeAfter source steps) ∧
      s.rangeAlong range (steps.map (·.edge)) = .ok (rangeAfter range steps) := by
  induction steps using List.reverseRecOn with
  | nil => exact ⟨.nil, rfl⟩
  | append_singleton steps st ih =>
    obtain ⟨h, hf, hP, hr, -⟩ := linked_append.mp h
    obtain ⟨hroute, hrange⟩ := ih h
    rw [List.map_append, typeAfter_append, rangeAfter_append]
    refine ⟨hroute.snoc hP hf, ?_⟩
    rw [Structs.rangeAlong, List.foldlM_append]
    exact bind_eq_ok.mpr ⟨_, hrange, bind_eq_ok.mpr ⟨_, hr, rfl⟩⟩

theorem total_map_edge (steps : List Step) : Edge.total (steps.map (·.edge)) =
    totalWeight steps := by
  rw [Edge.total, List.foldl_map]
  rfl

end Step

/-! ### Conversions that do not depend on ranges -/

theorem Edge.usable_of_policy {e : Edge} {explicit : Bool}
    (h : explicit = true ∨ e.policy = .implicit) (range : Range) :
    e.usable range explicit = true := by
  unfold usable
  rcases h with rfl | h
  · cases e.policy <;> rfl
  · rw [h]

/-- The conversions of families do not depend on ranges. -/
theorem CastFamily.policy_ne {f : CastFamily} {a : Ty} {e : Edge} (h : f.edge? a = some e) :
    e.policy ≠ .implicitInRange := by
  unfold edge? at h
  split at h
  · split at h
    · split at h
      · cases h
        exact nofun
      · cases h
    · cases h
  · split at h
    · cases h
      exact nofun
    · cases h

namespace CastTable

variable {t : CastTable} {s : Structs} {R : StructRef → Prop} {q : CastQuery} {source : Ty}
  {range : Range} {rs : List Reached} {taken : List (Nat × Edge)}

/-- No conversion is left to the range of the value. -/
def Unranged (es : List Edge) (explicit : Bool) : Prop :=
  explicit = true ∨ ∀ e ∈ es, e.policy ≠ .implicitInRange

/-- Then policies alone say what may be taken. -/
theorem Unranged.policy {es : List Edge} {fs : List CastFamily} {explicit : Bool} {e : Edge}
    (hu : Unranged es explicit) (he : e.Available es fs explicit) :
    explicit = true ∨ e.policy = .implicit := by
  obtain ⟨he, range, ha⟩ := he
  rcases hu with hu | hu
  · exact .inl hu
  have hne : e.policy ≠ .implicitInRange := by
    rcases he with he | ⟨f, -, hf⟩ | ⟨-, he⟩
    · exact hu e he
    · exact CastFamily.policy_ne hf
    · rw [he]
      exact nofun
  unfold Edge.usable at ha
  cases h : e.policy with
  | implicit => exact .inr rfl
  | implicitInRange => exact absurd h hne
  | explicitOnly =>
    rw [h] at ha
    exact .inl ha

/-- A conversion of the table can be taken from every type of the form it starts at, at least one
that leads to the same form at the same price. -/
theorem Grouped.offers_of_among (hR : s.Tells R) (hg : t.Grouped s R) {x : Ty} (hx : x.Over R)
    {e : Edge} (he : e.Among t.edges t.families) (hf : s.form e.source = s.form x) :
    ∃ e', t.Offers s x e' ∧ s.form e'.destination = s.form e.destination ∧
      e'.weight = e.weight ∧ e'.policy = e.policy := by
  rcases he with he | ⟨f, hmem, hfe⟩ | ⟨hflag, he⟩
  · obtain ⟨g, hgm, he⟩ := List.mem_flatMap.mp he
    have hc := (Structs.compare_eq_true_iff hR hx (hg.source g hgm)).mpr
      (hf.symm.trans (hg.form_eq g hgm e he))
    exact ⟨e, .inl ⟨g, hgm, hc, he⟩, rfl, rfl, rfl⟩
  · obtain ⟨stamp, p, hs, -, -⟩ := CastFamily.edge?_cases hfe
    rw [hs] at hf
    cases x with
    | pointer g stamp' p' =>
      injection hf with hfl hp
      subst hfl
      cases f with
      | dropMutable =>
        rw [hs] at hfe
        simp only [CastFamily.edge?, Flags.none] at hfe
        split at hfe
        · next hm =>
          cases hfe
          have hm' : p'.isMutable = true := by
            rw [Ty.isMutable, ← Structs.flags_eq_of_form hp]
            exact hm
          refine ⟨_, .inr (.inl ⟨_, hmem, if_pos hm'⟩), ?_, rfl, rfl⟩
          simp only [Ty.pointerTo, Ty.notMutable, Structs.form, Structs.form_withFlags, hp,
            Structs.flags_eq_of_form hp]
        · cases hfe
      | pointerToBool b =>
        rw [hs] at hfe
        cases hfe
        exact ⟨_, .inr (.inl ⟨_, hmem, rfl⟩), rfl, rfl, rfl⟩
    | scalar _ _ | function _ _ _ _ _ | struct _ _ => cases hf
  · have hx' : x.isFlagged = true := (Structs.isFlagged_eq_of_form hf).symm.trans hflag
    refine ⟨.decay x, .inr (.inr ⟨hx', rfl⟩), ?_, ?_, ?_⟩
    · rw [he]
      exact Structs.form_bare_eq hf.symm
    · rw [he]
      rfl
    · rw [he]
      rfl

/-! ### Routes are covered -/

section Cover

/-- The routes of the search. -/
abbrev Leads (t : CastTable) (s : Structs) (q : CastQuery) (source : Ty) : List Edge → Ty → Prop :=
  Edge.Route s (Edge.Available t.edges t.families q.explicit) source

variable (hR : s.Tells R) (hg : t.Grouped s R) (hu : Unranged t.edges q.explicit)
  (hl : q.limit.Open) {p : List Edge}

include hR hg hu hl

/-- The next conversion of a route was taken from a settled type on it. -/
theorem Charted.covers_step (hc : t.Charted s R q source range rs taken)
    (done : t.Done s q rs taken) {i : Nat} {x : Reached} {w : Weight} {e : Edge}
    (hx : rs[i]? = some x) (hxs : x.settled = true) (hle : x.rank ≤ w.rank)
    (hf : s.form e.source = s.form x.type)
    (he : e.Available t.edges t.families q.explicit)
    (hw : (w + e.weight).rank ≤ q.limit.rank) :
    ∃ e', (i, e') ∈ taken ∧ s.form e'.destination = s.form e.destination ∧ e'.weight = e.weight ∧
      (x.chain.weight + e.weight).rank ≤ (w + e.weight).rank := by
  have hover := (hc.sound x (List.mem_of_getElem? hx)).mem
  have hadd := Weight.rank_add_le hl hle hw
  obtain ⟨e', hoffers, hd, hweight, hpolicy⟩ := hg.offers_of_among hR hover he.1 hf
  have husable := Edge.usable_of_policy (hpolicy ▸ hu.policy he) x.range
  refine ⟨e', done i x e' hx hxs ⟨hoffers, husable, ?_⟩, hd, hweight, hadd⟩
  rw [hweight]
  exact Nat.le_trans hadd hw

/-- A route within the limit leads to a settled type that is as near, or past a type that is not
settled and as near. -/
theorem Charted.covers (hc : t.Charted s R q source range rs taken) (done : t.Done s q rs taken)
    {a : Ty} (h : t.Leads s q source p a)
    (hw : (Edge.total p).rank ≤ q.limit.rank) :
    (∃ (i : Nat) (x : Reached), rs[i]? = some x ∧ x.settled = true ∧ s.form x.type = s.form a ∧
      x.rank ≤ (Edge.total p).rank) ∨
    ∃ y ∈ rs, y.settled = false ∧ y.rank ≤ (Edge.total p).rank := by
  -- a type that has a place is settled or not
  have place : ∀ {i : Nat} {x : Reached} {b : Ty} {w : Weight}, rs[i]? = some x →
      s.form x.type = s.form b → x.rank ≤ w.rank →
      (∃ (i : Nat) (x : Reached), rs[i]? = some x ∧ x.settled = true ∧ s.form x.type = s.form b ∧
        x.rank ≤ w.rank) ∨
      ∃ y ∈ rs, y.settled = false ∧ y.rank ≤ w.rank := by
    intro i x b w hx hf hle
    cases hs : x.settled with
    | true => exact .inl ⟨i, x, hx, hs, hf, hle⟩
    | false => exact .inr ⟨x, List.mem_of_getElem? hx, hs, hle⟩
  induction h with
  | nil =>
    obtain ⟨x, hx, hf, hchain⟩ := hc.start
    refine place hx hf ?_
    rw [Reached.rank, hchain]
    exact le_rfl
  | @snoc p a e h he hf ih =>
    rw [Edge.total_append_singleton] at hw ⊢
    have grows := Weight.rank_le_add (Edge.total p) e.weight
    rcases ih (Nat.le_trans grows hw) with ⟨i, x, hx, hxs, hxf, hle⟩ | ⟨y, hy, hys, hle⟩
    · obtain ⟨e', htook, hd, hweight, hadd⟩ :=
        hc.covers_step hR hg hu hl done hx hxs hle (hf.trans hxf.symm) he hw
      obtain ⟨r, hr, -, -, z, hz, hzf, hzle⟩ := hc.taken i e' htook
      cases hr.symm.trans hx
      obtain ⟨k, hk⟩ := List.mem_iff_getElem?.mp hz
      rw [hweight] at hzle
      exact place hk (hzf.trans hd) (Nat.le_trans hzle hadd)
    · exact .inr ⟨y, hy, hys, Nat.le_trans hle grows⟩

/-- The nearest type, if it is the one looked for, is as near as it can be. -/
theorem Charted.nearest_le (hc : t.Charted s R q source range rs taken)
    (done : t.Done s q rs taken) {r : Reached}
    (hmin : ∀ x ∈ rs, x.settled = false → r.rank ≤ x.rank) (hr : r ∈ rs) {a : Ty}
    (h : t.Leads s q source p a) (ha : s.form a = s.form q.destination) :
    r.rank ≤ (Edge.total p).rank := by
  by_cases hw : (Edge.total p).rank ≤ q.limit.rank
  · rcases hc.covers hR hg hu hl done h hw with ⟨i, x, hx, hxs, hf, -⟩ | ⟨y, hy, hys, hle⟩
    · exact absurd (hf.trans ha) (hc.away x (List.mem_of_getElem? hx) hxs)
    · exact Nat.le_trans (hmin y hy hys) hle
  · exact Nat.le_trans (hc.within r hr) (Nat.le_of_not_le hw)

/-- Where nothing is left no route within the limit leads to what was looked for. -/
theorem Charted.not_leads (hc : t.Charted s R q source range rs taken)
    (done : t.Done s q rs taken) (hall : ∀ x ∈ rs, x.settled = true) {a : Ty}
    (h : t.Leads s q source p a) (ha : s.form a = s.form q.destination) :
    ¬ (Edge.total p).rank ≤ q.limit.rank := by
  intro hw
  rcases hc.covers hR hg hu hl done h hw with ⟨i, x, hx, hxs, hf, -⟩ | ⟨y, hy, hys, -⟩
  · exact hc.away x (List.mem_of_getElem? hx) hxs (hf.trans ha)
  · cases (hall y hy).symm.trans hys

end Cover

/-! ### Ties -/

/-- A conversion taken from the place `i` leads to the type `y` at exactly its weight. -/
def Hits (s : Structs) (rs : List Reached) (taken : List (Nat × Edge)) (i : Nat) (y : Reached) :
    Prop :=
  ∃ r e, rs[i]? = some r ∧ (i, e) ∈ taken ∧ s.form y.type = s.form e.destination ∧
    r.chain.weight + e.weight = y.chain.weight

/-- Types other than the source remember one of the places they are hit from.  A type is tied if one
of those places is, or if there are several. -/
def Ties (s : Structs) (rs : List Reached) (taken : List (Nat × Edge)) : Prop :=
  ∀ (k : Nat) (y : Reached), rs[k]? = some y →
    (k ≠ 0 → ∃ i, y.parent = some i ∧ Hits s rs taken i y) ∧
    (y.tied = true ↔
      (∃ i r, Hits s rs taken i y ∧ rs[i]? = some r ∧ r.tied = true) ∨
        ∃ i j, i ≠ j ∧ Hits s rs taken i y ∧ Hits s rs taken j y)

/-- Settling a type changes no hits. -/
theorem hits_settle {place i : Nat} {y : Reached} :
    Hits s (rs.modify place Reached.settle) taken i y ↔ Hits s rs taken i y := by
  constructor
  · rintro ⟨r, e, hr, he, hf, hw⟩
    obtain ⟨x, hx, ⟨-, rfl⟩ | ⟨-, rfl⟩⟩ := Reached.settle_cases hr
    · exact ⟨x, e, hx, he, hf, hw⟩
    · exact ⟨r, e, hx, he, hf, hw⟩
  · rintro ⟨r, e, hr, he, hf, hw⟩
    refine ⟨_, e, Reached.settle_stays place hr, he, hf, ?_⟩
    split <;> exact hw

/-- So it changes no ties. -/
theorem Ties.settle {place : Nat} (h : Ties s rs taken) :
    Ties s (rs.modify place Reached.settle) taken := by
  have tied : ∀ {i : Nat} {b : Bool}, (∃ r, (rs.modify place Reached.settle)[i]? = some r ∧
      r.tied = b) ↔ ∃ r, rs[i]? = some r ∧ r.tied = b := by
    intro i b
    constructor
    · rintro ⟨r, hr, ht⟩
      obtain ⟨x, hx, ⟨-, rfl⟩ | ⟨-, rfl⟩⟩ := Reached.settle_cases hr
      · exact ⟨x, hx, ht⟩
      · exact ⟨r, hx, ht⟩
    · rintro ⟨r, hr, ht⟩
      refine ⟨_, Reached.settle_stays place hr, ?_⟩
      split <;> exact ht
  intro k y hy
  obtain ⟨x, hx, hxy⟩ := Reached.settle_cases hy
  obtain ⟨hparent, htied⟩ := h k x hx
  -- the types before and after agree on all that matters here
  have same : ∀ i, Hits s rs taken i y ↔ Hits s rs taken i x := by
    intro i
    rcases hxy with ⟨-, rfl⟩ | ⟨-, rfl⟩
    · exact Iff.rfl
    · exact Iff.rfl
  have fields : y.parent = x.parent ∧ y.tied = x.tied := by
    rcases hxy with ⟨-, rfl⟩ | ⟨-, rfl⟩
    · exact ⟨rfl, rfl⟩
    · exact ⟨rfl, rfl⟩
  simp only [hits_settle, same, fields.1, fields.2, exists_and_left, tied]
  simp only [exists_and_left] at htied
  exact ⟨hparent, htied⟩

section Take

variable {rs' : List Reached} {place : Nat} {r : Reached} {e : Edge} {range' : Range}
  (hc : t.Charted s R q source range rs taken) (hr : rs[place]? = some r) (hs : r.settled = true)
  (hrel : Reached.Relaxes s rs place r e range' rs')

include hc hr hs hrel

/-- A conversion that is taken adds the hits that it makes itself. -/
theorem hits_take {i : Nat} {y : Reached} :
    Hits s rs' ((place, e) :: taken) i y ↔ Hits s rs taken i y ∨
      (i = place ∧ s.form y.type = s.form e.destination ∧
        r.chain.weight + e.weight = y.chain.weight) := by
  constructor
  · rintro ⟨a, e', ha, hie, hf, hw⟩
    rcases List.mem_cons.mp hie with hie | hie
    · cases hie
      obtain rfl := Option.some.inj ((hrel.settled_stays hs hr).symm.trans ha)
      exact .inr ⟨rfl, hf, hw⟩
    · obtain ⟨b, hb, hbs, -⟩ := hc.taken i e' hie
      obtain rfl := Option.some.inj ((hrel.settled_stays hbs hb).symm.trans ha)
      exact .inl ⟨b, e', hb, hie, hf, hw⟩
  · rintro (⟨a, e', ha, hie, hf, hw⟩ | ⟨rfl, hf, hw⟩)
    · obtain ⟨b, hb, hbs, -⟩ := hc.taken i e' hie
      obtain rfl := Option.some.inj (hb.symm.trans ha)
      exact ⟨b, e', hrel.settled_stays hbs hb, .tail _ hie, hf, hw⟩
    · exact ⟨r, e, hrel.settled_stays hs hr, .head _, hf, hw⟩

/-- Places that hit a type keep what they know. -/
theorem tied_take {i : Nat} {y : Reached} (h : Hits s rs' ((place, e) :: taken) i y) :
    (∃ a, rs'[i]? = some a ∧ a.tied = true) ↔ ∃ a, rs[i]? = some a ∧ a.tied = true := by
  have stays : ∀ a, rs'[i]? = some a ↔ rs[i]? = some a := by
    obtain ⟨b, e', hb, hie, -⟩ := h
    obtain ⟨c, hc, hcs⟩ : ∃ c, rs[i]? = some c ∧ c.settled = true := by
      rcases List.mem_cons.mp hie with hie | hie
      · cases hie
        exact ⟨r, hr, hs⟩
      · obtain ⟨c, hc, hcs, -⟩ := hc.taken i e' hie
        exact ⟨c, hc, hcs⟩
    intro a
    rw [hrel.settled_stays hcs hc, hc]
  simp only [stays]

section Ties

variable (h : Ties s rs taken) (hl : q.limit.Open)
  (last : ∀ x ∈ rs, x.settled = true → x.rank ≤ r.rank) (ht : t.Takes s q r e)
  (hstep : 1 ≤ e.weight.length.toNat)

include h hl last ht hstep

/-- Behind one more conversion a type is hit as before, or only from the new place, or from the new
place as well as from the one that it remembers. -/
theorem Ties.hits_cases {k : Nat} {y : Reached} (hy : rs'[k]? = some y) :
    (rs[k]? = some y ∧ ∀ i, Hits s rs' ((place, e) :: taken) i y ↔ Hits s rs taken i y) ∨
    (y.parent = some place ∧ y.tied = r.tied ∧
      ∀ i, Hits s rs' ((place, e) :: taken) i y ↔ i = place) ∨
    y.tied = true ∧ Hits s rs' ((place, e) :: taken) place y ∧
      ∃ i, i ≠ place ∧ y.parent = some i ∧ Hits s rs' ((place, e) :: taken) i y := by
  have hlt : r.rank < (r.chain.weight + e.weight).rank := Weight.rank_lt_add hl hstep ht.within
  -- a type is never nearer than the places that lead to it say
  have nearer : ∀ {k i : Nat} {x : Reached} {w : Weight}, rs[k]? = some x →
      (∃ a e', rs[i]? = some a ∧ (i, e') ∈ taken ∧ s.form x.type = s.form e'.destination ∧
        a.chain.weight + e'.weight = w) → x.rank ≤ w.rank := by
    rintro k i x w hx ⟨a, e', ha, hie, hf, rfl⟩
    obtain ⟨b, hb, -, -, z, hz, hzf, hle⟩ := hc.taken i e' hie
    cases hb.symm.trans ha
    obtain ⟨m, hm⟩ := List.mem_iff_getElem?.mp hz
    obtain rfl := hc.apart.eq hx hm (hf.trans hzf.symm)
    cases hx.symm.trans hm
    exact hle
  -- nothing leads to the source at no weight
  have notSource : ∀ {k : Nat} {x : Reached}, rs[k]? = some x →
      r.chain.weight + e.weight = x.chain.weight → k ≠ 0 := by
    rintro k x hx hw rfl
    obtain ⟨x', hx', -, hchain⟩ := hc.start
    cases hx.symm.trans hx'
    rw [hw, hchain, Chain.identity, Weight.rank_zero] at hlt
    exact absurd hlt (Nat.not_lt_zero _)
  have hits := fun i => hits_take hc hr hs hrel (i := i) (y := y)
  have asBefore : (s.form y.type = s.form e.destination →
      r.chain.weight + e.weight = y.chain.weight → Hits s rs taken place y) →
      ∀ i, Hits s rs' ((place, e) :: taken) i y ↔ Hits s rs taken i y := by
    refine fun old i => (hits i).trans ⟨?_, .inl⟩
    rintro (hi | ⟨rfl, hf, hw⟩)
    · exact hi
    · exact old hf hw
  have onlyNew : s.form y.type = s.form e.destination →
      r.chain.weight + e.weight = y.chain.weight → (∀ i, ¬ Hits s rs taken i y) →
      ∀ i, Hits s rs' ((place, e) :: taken) i y ↔ i = place := by
    refine fun hf hw none i => (hits i).trans ⟨?_, fun hi => .inr ⟨hi, hf, hw⟩⟩
    rintro (hi | ⟨hi, -⟩)
    · exact absurd hi (none i)
    · exact hi
  rcases hrel.place_cases hc.apart hy with ⟨hy, hne⟩ | ⟨x, hx, hf, hxy⟩ | ⟨rfl, hfresh, rfl⟩
  · exact .inl ⟨hy, asBefore fun hf => absurd hf hne⟩
  · rcases Reached.revisit_cases place r (r.chain.extend e range') range' x with
      ⟨hxs, hv⟩ | ⟨-, hlt', hv⟩ | ⟨-, hw, hp, hv⟩ | ⟨-, -, hp, hv⟩
    · -- settled types are nearer
      obtain rfl := hxy.trans hv
      refine .inl ⟨hx, asBefore fun _ hw => ?_⟩
      have := last y (List.mem_of_getElem? hx) hxs
      rw [Reached.rank, ← hw] at this
      exact absurd this (Nat.not_le_of_lt hlt)
    · rw [hv] at hxy
      subst hxy
      refine .inr (.inl ⟨rfl, rfl, onlyNew hf rfl ?_⟩)
      rintro i ⟨a, e', ha, hie, hf', hw⟩
      exact absurd (nearer hx ⟨a, e', ha, hie, hf', hw⟩) (Nat.not_le_of_lt hlt')
    · obtain ⟨i, hi, hhit⟩ := (h k x hx).1 (notSource hx hw)
      rw [hv] at hxy
      subst hxy
      exact .inr (.inr ⟨rfl, (hits place).mpr (.inr ⟨rfl, hf, hw⟩), i, fun h =>
        hp (h ▸ hi), hi,
        (hits i).mpr (.inl hhit)⟩)
    · obtain rfl := hxy.trans hv
      refine .inl ⟨hx, asBefore fun _ hw => ?_⟩
      obtain ⟨i, hi, hhit⟩ := (h k y hx).1 (notSource hx hw)
      cases hi.symm.trans (hp hw)
      exact hhit
  · refine .inr (.inl ⟨rfl, rfl, onlyNew rfl rfl ?_⟩)
    rintro i ⟨a, e', ha, hie, hf', -⟩
    obtain ⟨b, -, -, -, z, hz, hzf, -⟩ := hc.taken i e' hie
    exact hfresh z hz (hzf.trans hf'.symm)

/-- A conversion that is taken keeps the ties right: whatever it hits is hit as before, or inherits
from its place, or is tied. -/
theorem Ties.take : Ties s rs' ((place, e) :: taken) := by
  intro k y hy
  rcases h.hits_cases hc hr hs hrel hl last ht hstep hy with
    ⟨hx, same⟩ | ⟨hparent, htied, same⟩ | ⟨htied, hplace, i, hne, hi, hhit⟩
  · obtain ⟨hparent, htied⟩ := h k y hx
    simp only [← same, exists_and_left] at hparent htied ⊢
    refine ⟨hparent, htied.trans (or_congr_left
      (exists_congr fun i => and_congr_right fun hi => ?_))⟩
    exact (tied_take hc hr hs hrel hi).symm
  · -- the type inherits from the place
    have stays := hrel.settled_stays hs hr
    refine ⟨fun _ => ⟨place, hparent, (same place).mpr rfl⟩, ?_⟩
    rw [htied]
    constructor
    · exact fun h => .inl ⟨place, r, (same place).mpr rfl, stays, h⟩
    · rintro (⟨i, a, hi, ha, hat⟩ | ⟨i, j, hne, hi, hj⟩)
      · obtain rfl := (same i).mp hi
        cases stays.symm.trans ha
        exact hat
      · exact absurd (((same i).mp hi).trans ((same j).mp hj).symm) hne
  · exact ⟨fun _ => ⟨i, hi, hhit⟩, fun _ => .inr ⟨i, place, hne, hhit, hplace⟩, fun _ => htied⟩

end Ties

end Take

/-- Ties are right in every state of a search. -/
theorem Explored.ties (hR : s.Tells R) (hg : t.Grouped s R) (hsource : source.Over R)
    (hl : q.limit.Open)
    (hstep : ∀ e, Edge.Available t.edges t.families q.explicit e → 1 ≤ e.weight.length.toNat)
    (h : t.Explored s q source range rs taken) : Ties s rs taken := by
  induction h with
  | start =>
    intro k y hy
    cases k with
    | succ k => cases hy
    | zero =>
      cases hy
      refine ⟨fun h => absurd rfl h, ⟨nofun, ?_⟩⟩
      rintro (⟨_, _, ⟨_, _, -, hmem, -⟩, -⟩ | ⟨_, _, -, ⟨_, _, -, hmem, -⟩, -⟩)
      · cases hmem
      · cases hmem
  | settle h done hn hd ih => exact ih.settle
  | @take rs rs' taken place r e range' h hr hs last others ht hrange hrel ih =>
    have hc := h.charted hR hg hsource
    obtain ⟨-, among, -⟩ := hg.of_offers hR (hc.sound r (List.mem_of_getElem? hr)).mem ht.offered
    exact ih.take hc hr hs hrel hl last ht (hstep e ⟨among, r.range, ht.usable⟩)

/-! ### Ties are routes -/

section Forks

variable (hR : s.Tells R) (hg : t.Grouped s R) (hu : Unranged t.edges q.explicit)
  (hl : q.limit.Open)
  (hstep : ∀ e, Edge.Available t.edges t.families q.explicit e → 1 ≤ e.weight.length.toNat)
  (hexact : Edge.Unsaturated s (Edge.Available t.edges t.families q.explicit) source q.limit)
  {x : Reached}

/-- The chain of a type that was reached is a route to it. -/
theorem Charted.leads (hc : t.Charted s R q source range rs taken) (hx : x ∈ rs) :
    ∃ p b, t.Leads s q source p b ∧ s.form b = s.form x.type ∧ Edge.total p = x.chain.weight := by
  have hs := hc.sound x hx
  exact ⟨_, _, hs.linked.route.1, hs.key_eq, (Step.total_map_edge _).trans hs.weight_eq⟩

include hR hg hu hl hstep hexact

/-- The last conversion of a lightest route to a type was taken from a settled place, to which the
rest of the route is a lightest one. -/
theorem Charted.hit_of_route (hc : t.Charted s R q source range rs taken)
    (done : t.Done s q rs taken) {k : Nat} (hx : rs[k]? = some x)
    (hmin : ∀ y ∈ rs, y.settled = false → x.rank ≤ y.rank) {p : List Edge} {b : Ty} {e : Edge}
    (h : t.Leads s q source p b) (he : e.Available t.edges t.families q.explicit)
    (hf : s.form e.source = s.form b) (hd : s.form e.destination = s.form x.type)
    (hw : Edge.total p + e.weight = x.chain.weight) :
    ∃ i r, rs[i]? = some r ∧ r.settled = true ∧ s.form r.type = s.form b ∧
      r.chain.weight = Edge.total p ∧ Hits s rs taken i x := by
  have hwithin : (Edge.total p + e.weight).rank ≤ q.limit.rank := by
    rw [hw]
    exact hc.within x (List.mem_of_getElem? hx)
  have hlt := Weight.rank_lt_add hl (hstep e he) hwithin
  rcases hc.covers hR hg hu hl done h (Nat.le_trans (Nat.le_of_lt hlt) hwithin) with
    ⟨i, r, hr, hrs, hrf, hle⟩ | ⟨y, hy, hys, hle⟩
  · obtain ⟨e', htook, hd', hweight, hadd⟩ :=
      hc.covers_step hR hg hu hl done hr hrs hle (hf.trans hrf.symm) he hwithin
    -- the type is not nearer than this conversion says, nor is it farther
    obtain ⟨r', hr', -, htakes, z, hz, hzf, hzle⟩ := hc.taken i e' htook
    obtain rfl := Option.some.inj (hr'.symm.trans hr)
    obtain ⟨m, hm⟩ := List.mem_iff_getElem?.mp hz
    obtain rfl := hc.apart.eq hx hm (hd.symm.trans (hd'.symm.trans hzf.symm))
    obtain rfl := Option.some.inj (hx.symm.trans hm)
    have heq : r'.chain.weight + e.weight = x.chain.weight := by
      rw [hweight, Reached.rank] at hzle
      refine Weight.rank_inj.mp (Nat.le_antisymm ?_ hzle)
      rw [← hw]
      exact hadd
    refine ⟨i, r', hr, hrs, hrf, ?_, r', e', hr, htook,
      hd.symm.trans hd'.symm, by rw [hweight, heq]⟩
    -- sums within the limit can be cancelled
    obtain ⟨p', b', h', hb', hp'⟩ := hc.leads (List.mem_of_getElem? hr)
    have hwithin' : (r'.chain.weight + e.weight).rank ≤ q.limit.rank := by
      rw [heq, ← hw]
      exact hwithin
    have hcost := hexact.cost_add h he hf hwithin
    have hcost' := hexact.cost_add h' he (hf.trans (hrf.symm.trans hb'.symm))
      (by rw [hp']; exact hwithin')
    have hlength := Weight.length_add_of_rank hl hwithin
    have hlength' := Weight.length_add_of_rank hl hwithin'
    rw [hp', heq, ← hw, hcost] at hcost'
    rw [heq, ← hw, hlength] at hlength'
    have hl : r'.chain.weight.length = (Edge.total p).length :=
      UInt32.toNat_inj.mp (Nat.add_right_cancel hlength'.symm)
    have hc : r'.chain.weight.cost = (Edge.total p).cost :=
      UInt32.toNat_inj.mp (Nat.add_right_cancel hcost'.symm)
    cases hrw : r'.chain.weight
    cases htw : Edge.total p
    rw [hrw, htw] at hl hc
    rw [Weight.mk.injEq]
    exact ⟨hl, hc⟩
  · have := hmin y hy hys
    rw [Reached.rank, ← hw] at this
    exact absurd (Nat.le_trans this hle) (Nat.not_le_of_lt hlt)

/-- **A type is tied exactly if two lightest routes lead to it** through different types; this holds
of all types that are not farther than what is left to settle. -/
theorem Charted.tied_iff (hc : t.Charted s R q source range rs taken) (done : t.Done s q rs taken)
    (ties : Ties s rs taken) {k : Nat} (hx : rs[k]? = some x)
    (hmin : ∀ y ∈ rs, y.settled = false → x.rank ≤ y.rank) :
    x.tied = true ↔ Edge.Forks s (Edge.Available t.edges t.families q.explicit) source x.type
      x.chain.weight := by
  induction hn : x.rank using Nat.strongRecOn generalizing k x with
  | ind n ih =>
    subst hn
    -- the places that hit the type are nearer, and all is known about them
    have before : ∀ {i : Nat}, Hits s rs taken i x → ∃ (r : Reached) (e : Edge), rs[i]? = some r ∧
        s.form x.type = s.form e.destination ∧ r.chain.weight + e.weight = x.chain.weight ∧
        e.Available t.edges t.families q.explicit ∧
        s.form e.source = s.form r.type ∧
        (r.tied = true ↔ Edge.Forks s (Edge.Available t.edges t.families q.explicit) source r.type
          r.chain.weight) := by
      rintro i ⟨r, e, hr, hie, hf, hw⟩
      obtain ⟨r', hr', hrs, htakes, -⟩ := hc.taken i e hie
      obtain rfl := Option.some.inj (hr'.symm.trans hr)
      have hmem := List.mem_of_getElem? hr
      obtain ⟨hsource, among, -⟩ := hg.of_offers hR (hc.sound r' hmem).mem htakes.offered
      refine ⟨r', e, hr, hf, hw, ⟨among, r'.range, htakes.usable⟩, hsource, ?_⟩
      have hlt := Weight.rank_lt_add hl (hstep e ⟨among, r'.range, htakes.usable⟩) htakes.within
      rw [hw] at hlt
      exact ih r'.rank hlt hr (fun y hy => hc.ordered r' hmem y hy hrs) rfl
    rw [(ties k x hx).2]
    constructor
    · rintro (⟨i, r, hhit, hr, htied⟩ | ⟨i, j, hne, hi, hj⟩)
      · obtain ⟨r', e, hr', hf, hw, he, hsource, hiff⟩ := before hhit
        obtain rfl := Option.some.inj (hr'.symm.trans hr)
        obtain ⟨p, b, p', b', hp, hp', hb, hb', hw₁, hw₂, hvisits⟩ := hiff.mp htied
        refine ⟨_, _, _, _, hp.snoc he (hsource.trans hb.symm),
          hp'.snoc he (hsource.trans hb'.symm),
          hf.symm, hf.symm, ?_, ?_, ?_⟩
        · rw [Edge.total_append_singleton, hw₁, hw]
        · rw [Edge.total_append_singleton, hw₂, hw]
        · rw [Edge.visits_append_singleton, Edge.visits_append_singleton]
          exact fun h => hvisits (List.append_cancel_right h)
      · obtain ⟨r, e, hr, hf, hw, he, hsource, -⟩ := before hi
        obtain ⟨r', e', hr', hf', hw', he', hsource', -⟩ := before hj
        obtain ⟨p, b, hp, hb, hpw⟩ := hc.leads (List.mem_of_getElem? hr)
        obtain ⟨p', b', hp', hb', hpw'⟩ := hc.leads (List.mem_of_getElem? hr')
        refine ⟨_, _, _, _, hp.snoc he (hsource.trans hb.symm),
          hp'.snoc he' (hsource'.trans hb'.symm), hf.symm, hf'.symm, ?_, ?_, ?_⟩
        · rw [Edge.total_append_singleton, hpw, hw]
        · rw [Edge.total_append_singleton, hpw', hw']
        · rw [Edge.visits_append_singleton, Edge.visits_append_singleton, ← hf, ← hf']
          intro h
          -- the types before the last are at different places
          have hlast := congrArg List.getLast? (List.append_cancel_right h)
          rw [hp.getLast?_visits, hp'.getLast?_visits, hb, hb'] at hlast
          exact hne (hc.apart.eq hr hr' (Option.some.inj hlast))
    · rintro ⟨p, b, p', b', hp, hp', hb, hb', hw, hw', hvisits⟩
      have hwithin := hc.within x (List.mem_of_getElem? hx)
      -- a route that goes anywhere has a weight
      have heavy : ∀ {p : List Edge} {e : Edge}, Edge.total p + e.weight = x.chain.weight →
          e.Available t.edges t.families q.explicit → x.chain.weight ≠ .zero := by
        intro p e hw he hzero
        have hlt := Weight.rank_lt_add (a := Edge.total p) hl (hstep e he)
          (by rw [hw]; exact hwithin)
        rw [hw, hzero, Weight.rank_zero] at hlt
        exact absurd hlt (Nat.not_lt_zero _)
      cases hp with
      | nil =>
        cases hp' with
        | nil => exact absurd rfl hvisits
        | snoc h' he' hf' =>
          rw [Edge.total_append_singleton] at hw'
          exact absurd hw.symm (heavy hw' he')
      | snoc h he hf =>
        rw [Edge.total_append_singleton] at hw
        cases hp' with
        | nil => exact absurd hw'.symm (heavy hw he)
        | snoc h' he' hf' =>
          rw [Edge.total_append_singleton] at hw'
          obtain ⟨i, r, hr, -, hrf, hrw, hhit⟩ :=
            hc.hit_of_route hR hg hu hl hstep hexact done hx hmin h he hf hb hw
          obtain ⟨j, r', hr', -, hrf', hrw', hhit'⟩ :=
            hc.hit_of_route hR hg hu hl hstep hexact done hx hmin h' he' hf' hb' hw'
          by_cases hij : i = j
          · subst hij
            obtain rfl := Option.some.inj (hr.symm.trans hr')
            obtain ⟨_, _, hr'', -, -, -, -, hiff⟩ := before hhit
            obtain rfl := Option.some.inj (hr''.symm.trans hr)
            refine .inl ⟨i, _, hhit, hr, hiff.mpr ?_⟩
            refine ⟨_, _, _, _, h, h', hrf.symm, hrf'.symm, hrw.symm, hrw'.symm, ?_⟩
            rw [Edge.visits_append_singleton, Edge.visits_append_singleton, hb, hb'] at hvisits
            exact fun h => hvisits (by rw [h])
          · exact .inr ⟨i, j, hij, hhit, hhit'⟩

end Forks

end CastTable

/-! ### Registered conversions -/

/-- Conversions are grouped by source where those of the first group are, the others are, and none
of the others have the source of the first. -/
theorem CastTable.grouped_cons {s : Structs} {R : StructRef → Prop} {g : CastGroup}
    {gs : List CastGroup} {fs : List CastFamily} :
    (⟨g :: gs, fs⟩ : CastTable).Grouped s R ↔
      (g.source.Over R ∧ ∀ e ∈ g.edges, s.form e.source = s.form g.source ∧ e.destination.Over R) ∧
      (∀ h ∈ gs, s.form g.source ≠ s.form h.source) ∧ (⟨gs, fs⟩ : CastTable).Grouped s R := by
  constructor
  · intro hg
    obtain ⟨source, source'⟩ := List.forall_mem_cons.mp hg.source
    obtain ⟨form, form'⟩ := List.forall_mem_cons.mp hg.form_eq
    obtain ⟨leads, leads'⟩ := List.forall_mem_cons.mp hg.destination
    obtain ⟨apart, apart'⟩ := List.pairwise_cons.mp hg.apart
    exact ⟨⟨source, fun e he => ⟨form e he, leads e he⟩⟩, apart, source', form', leads', apart',
      hg.plain⟩
  · rintro ⟨⟨source, edges⟩, apart, hg⟩
    exact ⟨List.forall_mem_cons.mpr ⟨source, hg.source⟩,
      List.forall_mem_cons.mpr ⟨fun e he => (edges e he).1, hg.form_eq⟩,
      List.forall_mem_cons.mpr ⟨fun e he => (edges e he).2, hg.destination⟩,
      List.pairwise_cons.mpr ⟨apart, hg.apart⟩, hg.plain⟩

/-- Registering a conversion adds it to the group of its source, or starts one. -/
theorem CastGroup.insert_of_tells {s : Structs} {R : StructRef → Prop} (hR : s.Tells R) {e : Edge}
    (hs : e.source.Over R) (hd : e.destination.Over R) {fs : List CastFamily} :
    ∀ {gs : List CastGroup}, (⟨gs, fs⟩ : CastTable).Grouped s R →
      ∃ gs', (insert s e gs).outcome = .ok gs' ∧ (⟨gs', fs⟩ : CastTable).Grouped s R ∧
        (∀ e', e' ∈ gs'.flatMap (·.edges) ↔ e' ∈ gs.flatMap (·.edges) ∨ e' = e) ∧
        ∀ g' ∈ gs', s.form g'.source = s.form e.source ∨ ∃ g ∈ gs,
          s.form g'.source = s.form g.source
  | [], hg => by
    refine ⟨[⟨e.source, [e]⟩], rfl, CastTable.grouped_cons.mpr ⟨⟨hs, ?_⟩, ?_, hg⟩, ?_, ?_⟩
    · intro e' he'
      rw [List.mem_singleton.mp he']
      exact ⟨rfl, hd⟩
    · exact fun h hh => absurd hh List.not_mem_nil
    · simp
    · intro g hg
      rw [List.mem_singleton.mp hg]
      exact .inl rfl
  | g :: gs, hg => by
    obtain ⟨⟨source, edges⟩, apart, tail⟩ := CastTable.grouped_cons.mp hg
    obtain ⟨c, hc, hiff⟩ := Structs.compareAlike_outcome hR source hs
    cases c with
    | true =>
      have hf := hiff.mp rfl
      refine ⟨{ g with edges := g.edges ++ [e] } :: gs,
        Traced.bind_ok.mpr ⟨true, hc, rfl⟩,
        CastTable.grouped_cons.mpr ⟨⟨source, ?_⟩, apart, tail⟩, ?_, ?_⟩
      · intro e' he'
        rcases List.mem_append.mp he' with he' | he'
        · exact edges e' he'
        · rw [List.mem_singleton.mp he']
          exact ⟨hf.symm, hd⟩
      · intro e'
        simp only [List.flatMap_cons, List.mem_append, List.mem_singleton]
        exact or_right_comm
      · intro h hh
        rcases List.mem_cons.mp hh with rfl | hh
        · exact .inl hf
        · exact .inr ⟨h, .tail _ hh, rfl⟩
    | false =>
      have hf : s.form g.source ≠ s.form e.source := fun h => absurd (hiff.mpr h) (by simp)
      obtain ⟨gs', hrun, hg', hedges, hforms⟩ := insert_of_tells hR hs hd tail
      refine ⟨g :: gs', Traced.bind_ok.mpr ⟨false, hc,
        Traced.bind_ok.mpr ⟨gs', hrun, rfl⟩⟩,
        CastTable.grouped_cons.mpr ⟨⟨source, edges⟩, ?_, hg'⟩, ?_, ?_⟩
      · intro h hh heq
        rcases hforms h hh with h' | ⟨h', hh', heq'⟩
        · exact hf (heq.trans h')
        · exact apart h' hh' (heq.trans heq')
      · intro e'
        simp only [List.flatMap_cons, List.mem_append, hedges e', or_assoc]
      · intro h hh
        rcases List.mem_cons.mp hh with rfl | hh
        · exact .inr ⟨h, .head _, rfl⟩
        · rcases hforms h hh with h' | ⟨h', hh', heq⟩
          · exact .inl h'
          · exact .inr ⟨h', .tail _ hh', heq⟩

namespace CastTable

variable {s : Structs} {R : StructRef → Prop}

/-- Registers conversions one after the other. -/
def registerAll (s : Structs) (t : CastTable) (es : List Edge) : Traced Fault CastTable :=
  es.foldlM (fun t e => t.register s e) t

/-- A table made by registering conversions holds these and no others, each in its group. -/
theorem register_grouped (hR : s.Tells R) :
    ∀ {es : List Edge} {t t' : CastTable}, t.Grouped s R →
      (∀ e ∈ es, e.source.Over R ∧ e.destination.Over R) →
      (registerAll s t es).outcome = .ok t' →
      t'.Grouped s R ∧ t'.families = t.families ∧ ∀ e, e ∈ t'.edges ↔ e ∈ t.edges ∨ e ∈ es
  | [], t, t', hg, _, h => by
    obtain rfl := Traced.pure_ok.mp h
    exact ⟨hg, rfl, fun e => by simp⟩
  | e :: es, t, t', hg, hes, h => by
    rw [registerAll, List.foldlM_cons] at h
    obtain ⟨t₁, h₁, h⟩ := Traced.bind_ok.mp h
    obtain ⟨gs, hgs, h₁⟩ := Traced.bind_ok.mp h₁
    obtain rfl := Traced.pure_ok.mp h₁
    have he := hes e (.head _)
    obtain ⟨gs', hrun, hg', hedges, -⟩ := CastGroup.insert_of_tells hR he.1 he.2 hg
    cases hgs.symm.trans hrun
    obtain ⟨hg'', hfamilies, hall⟩ := register_grouped hR hg'
      (fun e he => hes e (.tail _ he)) h
    refine ⟨hg'', hfamilies, fun e' => ?_⟩
    rw [hall e', List.mem_cons, ← or_assoc]
    exact or_congr_left (hedges e')

/-- The conversions that a search takes stand on routes, and so they give ranges. -/
theorem ranged_of_routes {t : CastTable} {q : CastQuery} {source : Ty} {range : Range}
    (hR : s.Tells R) (hg : t.Grouped s R) (hsource : source.Over R)
    (hv : ∀ p b, t.Leads s q source p b → (Edge.total p).le q.limit = true →
      ∃ r, s.rangeAlong range p = .ok r) :
    t.Ranged s q source range := by
  intro rs taken h x hx e ht
  have hs := (h.charted hR hg hsource).sound x hx
  obtain ⟨hf, among, -⟩ := hg.of_offers hR hs.mem ht.offered
  obtain ⟨hroute, hrange⟩ := hs.linked.route
  have weight : Edge.total (x.chain.steps.map (·.edge) ++ [e]) = x.chain.weight + e.weight := by
    rw [Edge.total_append_singleton, Step.total_map_edge, hs.weight_eq]
  obtain ⟨r, hr⟩ := hv _ _ (hroute.snoc ⟨among, x.range, ht.usable⟩ (hf.trans hs.key_eq.symm))
    (by rw [weight]; exact Weight.le_iff_rank.mpr ht.within)
  rw [Structs.rangeAlong, List.foldlM_append] at hr
  obtain ⟨r₁, hr₁, hr⟩ := bind_eq_ok.mp hr
  obtain ⟨r₂, hr₂, -⟩ := bind_eq_ok.mp hr
  cases hr₁.symm.trans hrange
  rw [hs.range_eq] at hr₂
  exact ⟨r₂, hr₂⟩

end CastTable

/-- What a search for the lightest chain has to answer, where `P` says which conversions there are.
Forms of types stand for types up to equality. -/
structure Found.Shortest (s : Structs) (P : Edge → Prop) (source : Ty) (range : Range)
    (q : CastQuery) (found : Found) : Prop where
  /-- There is a chain exactly if a route within the limit leads to the destination. -/
  found_iff : (∃ c tied, found = .chain c tied) ↔
    ∃ p b, Edge.Route s P source p b ∧ s.form b = s.form q.destination ∧
      (Edge.total p).le q.limit = true
  /-- It is such a route, and its steps record the ranges along it. -/
  linked : ∀ c tied, found = .chain c tied → Step.Linked s.form s P source range c.steps ∧
    s.form (Step.typeAfter source c.steps) = s.form q.destination
  weight : ∀ c tied, found = .chain c tied → c.weight = Edge.total (c.steps.map (·.edge)) ∧
    c.weight.le q.limit = true
  least : ∀ c tied, found = .chain c tied → ∀ p b, Edge.Route s P source p b →
    s.form b = s.form q.destination → c.weight.le (Edge.total p) = true
  /-- Where every conversion is a step and costs add up exactly, the chain is tied exactly if two
  lightest routes lead through different types. -/
  tied_iff : (∀ e, P e → 1 ≤ e.weight.length.toNat) → Edge.Unsaturated s P source q.limit →
    ∀ c tied, found = .chain c tied → (tied = true ↔ Edge.Forks s P source q.destination c.weight)

namespace CastTable

variable {t : CastTable} {s : Structs} {R : StructRef → Prop} {q : CastQuery} {source : Ty}
  {range : Range}

/-- The answer is read off the state in which the search ends. -/
theorem Grouped.search_lightest (hR : s.Tells R) (hg : t.Grouped s R) (hsource : source.Over R)
    (hdest : q.destination.Over R) (hu : Unranged t.edges q.explicit) (hl : q.limit.Open)
    (hv : ∀ p b, t.Leads s q source p b → (Edge.total p).le q.limit = true →
      ∃ r, s.rangeAlong range p = .ok r) :
    ∃ found, (t.search s source range q).outcome = .ok found ∧
      found.Shortest s (Edge.Available t.edges t.families q.explicit) source range q := by
  obtain ⟨rs, taken, found, hrun, hx, done, hends⟩ := search_explored hR hg hsource hdest
    (ranged_of_routes hR hg hsource hv)
  have hc := hx.charted hR hg hsource
  refine ⟨found, hrun, ?_⟩
  cases hends with
  | exhausted hall =>
    refine ⟨⟨?_, ?_⟩, nofun, nofun, nofun, nofun⟩
    · rintro ⟨c, tied, h⟩
      cases h
    · rintro ⟨p, b, hp, hb, hw⟩
      exact absurd (Weight.le_iff_rank.mp hw) (hc.not_leads hR hg hu hl done hall hp hb)
  | @found place r hn hd =>
    obtain ⟨hr, -, hmin⟩ := Reached.nearest_spec hn
    have hmem := List.mem_of_getElem? hr
    have hs := hc.sound r hmem
    have hweight : r.chain.weight = Edge.total (r.chain.steps.map (·.edge)) :=
      hs.weight_eq.symm.trans (Step.total_map_edge _).symm
    have hlimit : r.chain.weight.le q.limit = true := Weight.le_iff_rank.mpr (hc.within r hmem)
    constructor
    case found_iff =>
      refine ⟨fun _ => ?_, fun _ => ⟨_, _, rfl⟩⟩
      exact ⟨_, _, hs.linked.route.1, hs.key_eq.trans hd, hweight ▸ hlimit⟩
    case linked =>
      rintro c tied ⟨⟩
      exact ⟨hs.linked, hs.key_eq.trans hd⟩
    case weight =>
      rintro c tied ⟨⟩
      exact ⟨hweight, hlimit⟩
    case least =>
      rintro c tied ⟨⟩ p b hp hb
      exact Weight.le_iff_rank.mpr (hc.nearest_le hR hg hu hl done hmin hmem hp hb)
    case tied_iff =>
      rintro hstep hexact c tied ⟨⟩
      have ties := hx.ties hR hg hsource hl hstep
      rw [hc.tied_iff hR hg hu hl hstep hexact done ties hr hmin]
      simp only [Edge.Forks, hd]

/-- **The search finds the lightest chain.**  Conversions `es` are registered one after the other
beside some families, no policy of them is left to ranges, and the structs in all types can be told
apart; wherever the conversions along routes within the limit give ranges, the search gives an
answer, and the right one. -/
theorem search_shortest (hR : s.Tells R) {es : List Edge} {fs : List CastFamily} {t : CastTable}
    (ht : (registerAll s ⟨[], fs⟩ es).outcome = .ok t)
    (hes : ∀ e ∈ es, e.source.Over R ∧ e.destination.Over R)
    (hfs : ∀ b, .pointerToBool b ∈ fs → ∃ c, b = .scalar .none c) {source : Ty} {range : Range}
    {q : CastQuery} (hsource : source.Over R) (hdest : q.destination.Over R)
    (hu : q.explicit = true ∨ ∀ e ∈ es, e.policy ≠ .implicitInRange)
    (hl : q.limit.length.toNat < UInt32.size - 1)
    (hv : ∀ p b, Edge.Route s (Edge.Available es fs q.explicit) source p b →
      (Edge.total p).le q.limit = true → ∃ r, s.rangeAlong range p = .ok r) :
    ∃ found, (t.search s source range q).outcome = .ok found ∧
      found.Shortest s (Edge.Available es fs q.explicit) source range q := by
  have start : (⟨[], fs⟩ : CastTable).Grouped s R :=
    ⟨nofun, nofun, nofun, List.Pairwise.nil, hfs⟩
  obtain ⟨hg, hfamilies, hedges⟩ := register_grouped hR start hes ht
  have hedges : ∀ e, e ∈ t.edges ↔ e ∈ es := by simpa [edges] using hedges
  have same : Edge.Available t.edges t.families q.explicit = Edge.Available es fs q.explicit := by
    funext e
    refine propext ⟨fun h => ⟨?_, h.allowed⟩, fun h => ⟨?_, h.allowed⟩⟩
    · simpa only [Edge.Among, hedges, hfamilies] using h.among
    · simpa only [Edge.Among, hedges, hfamilies] using h.among
  have hu : Unranged t.edges q.explicit := by simpa only [Unranged, hedges] using hu
  rw [← same] at hv ⊢
  exact hg.search_lightest hR hsource hdest hu hl hv

/-- Two ways from `U8` to `U64`, as light as each other. -/
def diamond : List Edge :=
  [(Builtin.u8, Builtin.u16), (Builtin.u8, Builtin.u32), (Builtin.u16, Builtin.u64),
    (Builtin.u32, Builtin.u64)].map fun (a, b) =>
      ⟨a, b, .step 1, .implicit, .reinterpret, .preserve⟩

/-- The search finds one of the two ways through the diamond, and that there is another. -/
theorem search_shortest_diamond :
    ∃ t found, (registerAll .empty ⟨[], []⟩ diamond).outcome = .ok t ∧
      (t.search .empty Builtin.u8 (.unsigned 3 9) ⟨Builtin.u64, false, ⟨8, 64⟩⟩).outcome =
        .ok found ∧
      found.Shortest .empty (Edge.Available diamond [] false) Builtin.u8 (.unsigned 3 9)
        ⟨Builtin.u64, false, ⟨8, 64⟩⟩ ∧ ∃ c, found = .chain c true := by
  let table : CastTable := ⟨[⟨Builtin.u8, diamond.take 2⟩, ⟨Builtin.u16, (diamond.drop 2).take 1⟩,
    ⟨Builtin.u32, diamond.drop 3⟩], []⟩
  have tells : Structs.empty.Tells fun _ => False := ⟨nofun, nofun⟩
  have scalars : ∀ e ∈ diamond, e.source.Over (fun _ => False) ∧ e.destination.Over fun _ =>
      False := by
    intro e he
    obtain ⟨⟨a, b⟩, hab, rfl⟩ := List.mem_map.mp he
    simp only [List.mem_cons, List.not_mem_nil, or_false, Prod.mk.injEq] at hab
    rcases hab with ⟨rfl, rfl⟩ | ⟨rfl, rfl⟩ | ⟨rfl, rfl⟩ | ⟨rfl, rfl⟩ <;> exact ⟨trivial, trivial⟩
  have preserved : ∀ p b, Edge.Route .empty (Edge.Available diamond [] false) Builtin.u8 p b →
      Structs.empty.rangeAlong (.unsigned 3 9) p = .ok (.unsigned 3 9) := by
    intro p b h
    induction h with
    | nil => rfl
    | @snoc p a e h he hf ih =>
      have rule : e.rule = .preserve := by
        rcases he.among with he | ⟨f, hf, -⟩ | ⟨-, he⟩
        · obtain ⟨_, -, rfl⟩ := List.mem_map.mp he
          rfl
        · cases hf
        · rw [he]
          rfl
      rw [Structs.rangeAlong, List.foldlM_append]
      have kept : Structs.empty.rangeAfter e (.unsigned 3 9) = .ok (.unsigned 3 9) := by
        unfold Structs.rangeAfter
        rw [rule]
        rfl
      exact bind_eq_ok.mpr ⟨_, ih, bind_eq_ok.mpr ⟨_, kept, rfl⟩⟩
  have registered : (registerAll .empty ⟨[], []⟩ diamond).outcome = .ok table := rfl
  obtain ⟨found, hrun, hshortest⟩ : ∃ found, (table.search .empty Builtin.u8 (.unsigned 3 9)
      ⟨Builtin.u64, false, ⟨8, 64⟩⟩).outcome = .ok found ∧ found.Shortest .empty
        (Edge.Available diamond [] false) Builtin.u8 (.unsigned 3 9)
        ⟨Builtin.u64, false, ⟨8, 64⟩⟩ :=
    search_shortest tells registered scalars nofun trivial trivial (.inr (by decide)) (by decide)
      fun p b h _ => ⟨_, preserved p b h⟩
  refine ⟨table, found, registered, hrun, hshortest, ?_⟩
  have tied : ((table.search .empty Builtin.u8 (.unsigned 3 9)
      ⟨Builtin.u64, false, ⟨8, 64⟩⟩).outcome.toOption.map fun found =>
        found.casesOn (motive := fun _ => Bool) (fun _ tied => tied) false) = some true := by
    decide +kernel
  rw [hrun] at tied
  cases found with
  | chain c b => exact ⟨c, congrArg (Found.chain c) (Option.some.inj tied)⟩
  | unreachable => cases tied

end CastTable

/-- Not every search gives an answer, though no route leads to what is looked for: the range of a
converted boolean is not defined where there is no boolean at all, and two structs of one name
cannot be compared before they have their members. -/
theorem CastTable.search_undefined :
    ((Builtin.casts.search .empty Builtin.bool (.bools ⟨false, false⟩)
        ⟨Builtin.void, true, ⟨8, 64⟩⟩).outcome = .error (.rangeOutsideDomain 1 0 "U8") ∧
      ∀ p b, Edge.Route .empty
        (Edge.Available Builtin.casts.edges Builtin.casts.families true) Builtin.bool p b →
        Structs.empty.form b ≠ Structs.empty.form Builtin.void) ∧
    ((CastTable.empty.search .twins (.struct .none ⟨0, "A"⟩) .void
        ⟨.struct .none ⟨1, "A"⟩, true, ⟨8, 64⟩⟩).outcome = .error (.structPending "A") ∧
      ∀ p b, Edge.Route .twins (Edge.Available [] [] true) (.struct .none ⟨0, "A"⟩) p b →
        Structs.twins.form b ≠ Structs.twins.form (.struct .none ⟨1, "A"⟩)) := by
  refine ⟨⟨eq_error_of_failure (by decide +kernel), fun p b h hb => ?_⟩,
    eq_error_of_failure (by decide +kernel), fun p b h hb => ?_⟩
  · -- conversions of values lead to values, and `Void` has none
    have values : b ∈ Builtin.values := by
      clear hb
      induction h with
      | nil => exact Builtin.bool_mem
      | @snoc p a e h he hf ih =>
        obtain ⟨c, rfl, -⟩ := Builtin.scalar_of_mem (Builtin.mem_all_of_values ih)
        rcases he.among with he | ⟨f, -, hfe⟩ | ⟨hflag, -⟩
        · obtain ⟨g, hg, he⟩ := List.mem_flatMap.mp he
          exact ((Builtin.mem_castGroups hg).2 e he).1.destination
        · obtain ⟨_, _, hs, -⟩ := CastFamily.edge?_cases hfe
          rw [hs] at hf
          cases hf
        · rw [Structs.isFlagged_eq_of_form hf] at hflag
          cases hflag
    obtain ⟨c, rfl, -⟩ := Builtin.scalar_of_mem (Builtin.mem_all_of_values values)
    injection hb with _ hk
    have notVoid := Builtin.not_void_of_values values
    simp [Ty.isVoid, Ty.hasKind, Ty.scalar?, hk] at notVoid
  · -- there is nothing to convert a struct by
    have stays : b = .struct .none ⟨0, "A"⟩ := by
      clear hb
      induction h with
      | nil => rfl
      | @snoc p a e h he hf ih =>
        subst ih
        rcases he.among with he | ⟨f, he, -⟩ | ⟨hflag, -⟩
        · cases he
        · cases he
        · rw [Structs.isFlagged_eq_of_form hf] at hflag
          cases hflag
    subst stays
    injection hb with _ _ hm
    cases hm

end Gauge
