import Gauge.Proofs.Cast.Offers

/-!
# Proofs — searches without a tie

Suppose that every type which a search can reach has a depth, the least number of conversions that
lead to it, and a home, the one type it is entered from by so few (`CastTable.Layers`).  Then no
type is ever tied: a second way to it is longer than the one through its home, however cheap its
steps are (`CastTable.layered_of_explored`), and a limit that lets it pass lets the shorter one pass
too.  What is known of the chains is put into the layers (`Fit`), and so holds of all those found.

The builtin conversions have such layers (`Builtin.layers_explicit`, `Builtin.layers_implicit`): a
value is loaded first, a pointer is asked whether it is null before its answer is converted, and
what is not reached in one conversion is reached through `U8`.
-/

namespace Gauge

namespace CastTable

section Layers

variable (t : CastTable) (s : Structs) (R : StructRef → Prop) (q : CastQuery) (source : Ty)
  (depth : Form → Nat) (home : Form → Form) (Fit : Form → Range → Chain → Prop)

/-- The types that a search can reach, with the ranges and the chains it can reach them with, lie in
layers: a conversion leads from a type to one that it is the home of, or to one that lies no deeper.
-/
structure Layers : Prop where
  start : depth (s.form source) = 0
  root : ∀ {d r c}, Fit d r c → depth d = 0 → d = s.form source
  shallow : ∀ {d r c}, Fit d r c → depth d ≤ 4
  step : ∀ {a e r r' c}, a.Over R → Fit (s.form a) r c → t.Offers s a e →
    e.usable r q.explicit = true → s.rangeAfter e r = .ok r' → e.weight.length.toNat = 1 ∧
      ((home (s.form e.destination) = s.form a ∧
          depth (s.form e.destination) = depth (s.form a) + 1 ∧
          Fit (s.form e.destination) r' (c.extend e r')) ∨
        (depth (s.form e.destination) ≤ depth (s.form a) ∧
          ∃ r'' c', Fit (s.form e.destination) r'' c'))
  up : ∀ {d r c}, Fit d r c → 0 < depth d → depth (home d) + 1 = depth d ∧
    (∃ r' c', Fit (home d) r' c') ∧ ∀ {b r' c'}, b.Over R → s.form b = home d →
      Fit (home d) r' c' → ∃ e, t.Offers s b e ∧ e.usable r' q.explicit = true ∧
        e.weight.length.toNat = 1 ∧ s.form e.destination = d

/-- The types reached so far were entered from their homes, and none is tied. -/
structure Layered (rs : List Reached) : Prop where
  length : ∀ x ∈ rs, x.chain.weight.length.toNat = depth (s.form x.type)
  fit : ∀ x ∈ rs, Fit (s.form x.type) x.range x.chain
  parent : ∀ x ∈ rs, 0 < depth (s.form x.type) →
    ∃ b z, x.parent = some b ∧ rs[b]? = some z ∧ s.form z.type = home (s.form x.type)
  untied : ∀ x ∈ rs, x.tied = false

end Layers

variable {t : CastTable} {s : Structs} {R : StructRef → Prop} {q : CastQuery} {source : Ty}
  {range : Range} {depth : Form → Nat} {home : Form → Form} {Fit : Form → Range → Chain → Prop}
  {rs rs' : List Reached} {taken : List (Nat × Edge)}

theorem length_le_of_rank_le {a b : Weight} (h : a.rank ≤ b.rank) :
    a.length.toNat ≤ b.length.toNat := by
  by_contra hlt
  have := Weight.rank_lt_of_length (Nat.not_le.mp hlt)
  omega

/-- One more conversion makes a chain one longer. -/
theorem Layers.length_add {d : Form} {r : Range} {c : Chain} {a w : Weight}
    (hl : t.Layers s R q source depth home Fit) (hd : Fit d r c)
    (ha : a.length.toNat = depth d) (hw : w.length.toNat = 1) :
    (a + w).length.toNat = depth d + 1 := by
  have := hl.shallow hd
  rw [Weight.length_add, ha, hw, UInt32.size]
  omega

/-- Where all conversions out of the types above a depth are taken, the types of that depth have a
place.  By induction on the depth: a type is entered from its home. -/
theorem Layered.place (hl : t.Layers s R q source depth home Fit)
    (hc : t.Charted s R q source range rs taken) (h : Layered s depth home Fit rs) {m : Nat}
    (hdone : ∀ i x e, rs[i]? = some x → depth (s.form x.type) < m → t.Takes s q x e →
      (i, e) ∈ taken) (hm : m < q.limit.length.toNat) :
    ∀ (n : Nat) {d : Form} {r : Range} {c : Chain}, Fit d r c → depth d = n → n ≤ m →
      ∃ x ∈ rs, s.form x.type = d
  | 0, d, r, c, hd, hn, _ => by
    obtain ⟨x, hx, hf, -⟩ := hc.start
    exact ⟨x, List.mem_of_getElem? hx, hf.trans (hl.root hd hn).symm⟩
  | n + 1, d, r, c, hd, hn, hle => by
    obtain ⟨hdepth, ⟨r', c', hr'⟩, enter⟩ := hl.up hd (by omega)
    obtain ⟨x, hx, hxf⟩ := Layered.place hl hc h hdone hm n hr' (by omega) (by omega)
    obtain ⟨i, hi⟩ := List.mem_iff_getElem?.mp hx
    have hfit : Fit (home d) x.range x.chain := hxf ▸ h.fit x hx
    obtain ⟨e, ho, hu, hw, hde⟩ := enter (hc.sound x hx).mem hxf hfit
    have hlen : (x.chain.weight + e.weight).length.toNat = depth (home d) + 1 :=
      hl.length_add hfit (hxf ▸ h.length x hx) hw
    have htakes : t.Takes s q x e :=
      ⟨ho, hu, Nat.le_of_lt (Weight.rank_lt_of_length (by omega))⟩
    obtain ⟨-, -, -, -, y, hy, hyf, -⟩ :=
      hc.taken i e (hdone i x e hi (by rw [hxf]; omega) htakes)
    exact ⟨y, hy, hyf.trans hde⟩

/-- At the start there is only the source. -/
theorem Layered.start (hl : t.Layers s R q source depth home Fit)
    (hfit : Fit (s.form source) range .identity) :
    Layered s depth home Fit [⟨source, .identity, range, none, false, false⟩] := by
  constructor <;> intro x hx <;> obtain rfl := List.mem_singleton.mp hx
  case length => exact hl.start.symm
  case fit => exact hfit
  case parent =>
    intro hpos
    rw [hl.start] at hpos
    exact absurd hpos (Nat.lt_irrefl 0)
  case untied => rfl

/-- Settling a type changes nothing that matters here. -/
theorem Layered.settle {place : Nat} {r : Reached} (h : Layered s depth home Fit rs)
    (hr : rs[place]? = some r) : Layered s depth home Fit (rs.modify place Reached.settle) := by
  have back : ∀ {P : Reached → Prop}, (∀ x ∈ rs, P x) → (P r → P r.settle) →
      ∀ y ∈ rs.modify place Reached.settle, P y := by
    intro P hP hs y hy
    rcases Reached.mem_settle hr hy with rfl | hy
    · exact hs (hP r (List.mem_of_getElem? hr))
    · exact hP y hy
  refine ⟨back h.length id, back h.fit id, back (fun x hx hpos => ?_) id, back h.untied id⟩
  obtain ⟨b, z, hb, hz, hf⟩ := h.parent x hx hpos
  refine ⟨b, _, hb, Reached.settle_stays place hz, ?_⟩
  split <;> exact hf

/-- A conversion that leads deeper is taken from the home of its destination, which is entered or
was entered from there; any other leads to a type that was reached by fewer conversions, and changes
nothing. -/
theorem Layered.take (hl : t.Layers s R q source depth home Fit) {place : Nat} {r : Reached}
    {e : Edge} {range' : Range} (hc : t.Charted s R q source range rs taken)
    (h : Layered s depth home Fit rs) (hr : rs[place]? = some r) (hrs : r.settled = true)
    (others : ∀ i x e, i ≠ place → rs[i]? = some x → x.settled = true → t.Takes s q x e →
      (i, e) ∈ taken)
    (ht : t.Takes s q r e) (hrange : s.rangeAfter e r.range = .ok range')
    (hrel : Reached.Relaxes s rs place r e range' rs') : Layered s depth home Fit rs' := by
  have hmem := List.mem_of_getElem? hr
  have stays : ∀ (b : Nat) (z : Reached), rs[b]? = some z →
      ∃ z' : Reached, rs'[b]? = some z' ∧ z'.type = z.type := by
    intro b z hz
    rcases hrel.place_stays hz with hz' | ⟨-, hz'⟩
    · exact ⟨z, hz', rfl⟩
    · exact ⟨_, hz', Reached.type_revisit⟩
  obtain ⟨r₀, hr₀, hrt⟩ := stays place r hr
  -- what has to be known of a place after the step
  let Good (y : Reached) : Prop := y.chain.weight.length.toNat = depth (s.form y.type) ∧
    Fit (s.form y.type) y.range y.chain ∧ (0 < depth (s.form y.type) → ∃ b z, y.parent = some b ∧
      rs'[b]? = some z ∧ s.form z.type = home (s.form y.type)) ∧ y.tied = false
  have kept : ∀ x ∈ rs, Good x := by
    intro x hx
    refine ⟨h.length x hx, h.fit x hx, fun hpos => ?_, h.untied x hx⟩
    obtain ⟨b, z, hb, hz, hf⟩ := h.parent x hx hpos
    obtain ⟨z', hz', hzt⟩ := stays b z hz
    exact ⟨b, z', hb, hz', by rw [hzt]; exact hf⟩
  obtain ⟨hw, hcases⟩ := hl.step (hc.sound r hmem).mem (h.fit r hmem) ht.offered ht.usable hrange
  have hlen : (r.chain.weight + e.weight).length.toNat = depth (s.form r.type) + 1 :=
    hl.length_add (h.fit r hmem) (h.length r hmem) hw
  -- it is enough to look at the type that the conversion leads to
  suffices key : (∀ x ∈ rs, s.form x.type = s.form e.destination →
      Good (Reached.revisit place r (r.chain.extend e range') range' x)) ∧
      ((∀ x ∈ rs, s.form x.type ≠ s.form e.destination) →
        Good ⟨e.destination, r.chain.extend e range', range', some place, r.tied, false⟩) by
    have all : ∀ y ∈ rs', Good y := by
      intro y hy
      rcases hrel.mem_cases hc.apart hy with hy | ⟨x, hx, hf, rfl⟩ | ⟨hfresh, rfl⟩
      · exact kept y hy
      · exact key.1 x hx hf
      · exact key.2 hfresh
    exact ⟨fun y hy => (all y hy).1, fun y hy => (all y hy).2.1, fun y hy => (all y hy).2.2.1,
      fun y hy => (all y hy).2.2.2⟩
  rcases hcases with ⟨hhome, hdepth, hfit⟩ | ⟨hle, r'', c'', hr''⟩
  · have entered : ∀ y : Reached, s.form y.type = s.form e.destination → y.parent = some place →
        y.chain = r.chain.extend e range' → y.range = range' → y.tied = r.tied → Good y := by
      intro y hy hp hchain hyr htied
      refine ⟨?_, ?_, fun _ => ⟨place, r₀, hp, hr₀, ?_⟩, htied.trans (h.untied r hmem)⟩
      · rw [hchain, hy, hdepth]
        exact hlen
      · rw [hy, hyr, hchain]
        exact hfit
      · rw [hrt, hy, hhome]
    constructor
    · intro x hx hxf
      -- the type was entered from its home before, which is this very place
      have hparent : x.parent = some place := by
        obtain ⟨b, z, hb, hz, hf⟩ := h.parent x hx (by rw [hxf]; omega)
        rw [hxf, hhome] at hf
        rw [hb, hc.apart.eq hz hr hf]
      rcases Reached.revisit_cases place r (r.chain.extend e range') range' x with
        ⟨-, hv⟩ | ⟨-, -, hv⟩ | ⟨-, -, hp, -⟩ | ⟨-, -, -, hv⟩
      · rw [hv]
        exact kept x hx
      · rw [hv]
        exact entered _ hxf rfl rfl rfl rfl
      · exact absurd hparent hp
      · rw [hv]
        exact kept x hx
    · exact fun _ => entered _ rfl rfl rfl rfl rfl
  · -- a type that lies no deeper has a place, and was reached by fewer conversions
    obtain ⟨x₀, hx₀, hf₀⟩ : ∃ x ∈ rs, s.form x.type = s.form e.destination := by
      refine h.place hl hc (m := depth (s.form r.type)) ?_ ?_ _ hr'' rfl hle
      · intro i x e' hi hlt htake
        have hx := List.mem_of_getElem? hi
        have hrank : x.rank < r.rank := by
          refine Weight.rank_lt_of_length ?_
          rw [h.length x hx, h.length r hmem]
          exact hlt
        refine others i x e' ?_ hi ?_ htake
        · rintro rfl
          cases hi.symm.trans hr
          exact Nat.lt_irrefl _ hlt
        · by_contra hxs
          have := hc.ordered r hmem x hx hrs (Bool.eq_false_iff.mpr hxs)
          omega
      · have := length_le_of_rank_le ht.within
        omega
    constructor
    · intro x hx hxf
      have lighter : x.rank < (r.chain.weight + e.weight).rank := by
        refine Weight.rank_lt_of_length ?_
        rw [h.length x hx, hxf]
        omega
      -- so the second way changes nothing
      rcases Reached.revisit_cases place r (r.chain.extend e range') range' x with
        ⟨-, hv⟩ | ⟨-, hlt, -⟩ | ⟨-, hw, -⟩ | ⟨-, -, -, hv⟩
      · rw [hv]
        exact kept x hx
      · exact absurd lighter (Nat.lt_asymm hlt)
      · rw [Reached.rank, ← hw] at lighter
        exact absurd lighter (Nat.lt_irrefl _)
      · rw [hv]
        exact kept x hx
    · exact fun hfresh => absurd hf₀ (hfresh x₀ hx₀)

/-- No type that a search reaches is tied. -/
theorem layered_of_explored (hl : t.Layers s R q source depth home Fit) (hR : s.Tells R)
    (hg : t.Grouped s R) (hs : source.Over R) (hfit : Fit (s.form source) range .identity)
    (h : t.Explored s q source range rs taken) : Layered s depth home Fit rs := by
  induction h with
  | start => exact .start hl hfit
  | settle h _ hn _ ih => exact ih.settle (Reached.nearest_spec hn).1
  | take h hr hrs last others ht hrange hrel ih =>
    exact ih.take hl (h.charted hR hg hs) hr hrs others ht hrange hrel

/-- Storage adds a layer above those of the value in it. -/
theorem Layers.load (hf : source.isFlagged = true)
    (hload : ∀ {a : Ty} {e : Edge}, a.Over R → a.isFlagged = true → (t.Offers s a e ↔ e = .decay a))
    (hl : t.Layers s R q source.bare depth home Fit)
    (hbare : ∀ {d r c}, Fit d r c → d.flags = .none ∧ depth d ≤ 3)
    (hfirst : ∀ a, Fit (s.form source.bare) range (Chain.identity.extend (.decay a) range)) :
    t.Layers s R q source (fun d => if d.flags = .none then depth d + 1 else 0)
      (fun d => if depth d = 0 then s.form source else home d)
      fun d r c => (d = s.form source ∧ r = range ∧ c = .identity) ∨ Fit d r c := by
  have flagged : (s.form source).flags ≠ .none := by
    rw [Structs.flags_form]
    intro h
    rw [Ty.isFlagged, Ty.isReference, Ty.isMutable, h] at hf
    cases hf
  constructor
  case start => exact if_neg flagged
  case root =>
    rintro d r c (⟨rfl, -⟩ | hd) hz
    · rfl
    · rw [if_pos (hbare hd).1] at hz
      cases hz
  case shallow =>
    rintro d r c (⟨rfl, -⟩ | hd)
    · rw [if_neg flagged]
      exact Nat.zero_le _
    · rw [if_pos (hbare hd).1]
      exact Nat.succ_le_succ (hbare hd).2
  case step =>
    rintro a e r r' c ha (⟨haf, rfl, rfl⟩ | hd) ho hu hr
    · have haflag : a.isFlagged = true := (Structs.isFlagged_eq_of_form haf).trans hf
      obtain rfl := (hload ha haflag).mp ho
      obtain rfl : r = r' := Except.ok.inj hr
      have hform : s.form (Edge.decay a).destination = s.form source.bare :=
        Structs.form_bare_eq haf
      refine ⟨rfl, .inl ⟨?_, ?_, .inr ?_⟩⟩
      · rw [hform, if_pos hl.start, haf]
      · rw [hform, haf, if_neg flagged, if_pos (hbare (hfirst a)).1, hl.start]
      · rw [hform]
        exact hfirst a
    · obtain ⟨hw, ⟨hhome, hdepth, hfit⟩ | ⟨hle, r'', c'', hr''⟩⟩ := hl.step ha hd ho hu hr
      · refine ⟨hw, .inl ⟨?_, ?_, .inr hfit⟩⟩
        · rw [if_neg (by omega), hhome]
        · rw [if_pos (hbare hfit).1, if_pos (hbare hd).1, hdepth]
      · refine ⟨hw, .inr ⟨?_, r'', c'', .inr hr''⟩⟩
        rw [if_pos (hbare hr'').1, if_pos (hbare hd).1]
        exact Nat.succ_le_succ hle
  case up =>
    rintro d r c (⟨rfl, -⟩ | hd) hpos
    · rw [if_neg flagged] at hpos
      exact absurd hpos (Nat.lt_irrefl 0)
    · by_cases hz : depth d = 0
      · obtain rfl := hl.root hd hz
        rw [if_pos hz, if_neg flagged, if_pos (hbare hd).1, hz]
        refine ⟨rfl, ⟨range, .identity, .inl ⟨rfl, rfl, rfl⟩⟩, ?_⟩
        intro b r' c' hb hbf _
        have hbflag : b.isFlagged = true := (Structs.isFlagged_eq_of_form hbf).trans hf
        exact ⟨.decay b, (hload hb hbflag).mpr rfl, rfl, rfl, Structs.form_bare_eq hbf⟩
      · obtain ⟨hdepth, ⟨r', c', hr'⟩, enter⟩ := hl.up hd (by omega)
        rw [if_neg hz, if_pos (hbare hd).1, if_pos (hbare hr').1, hdepth]
        refine ⟨rfl, ⟨r', c', .inr hr'⟩, ?_⟩
        rintro b r'' c'' hb hbf (⟨hsource, -⟩ | hr'')
        · exact absurd (hsource ▸ (hbare hr').1) flagged
        · exact enter hb hbf hr''

/-- The layers of where a value is stored: those of the value, below one more if it has to be
loaded. -/
theorem Layers.loaded (source : Ty) (range : Range)
    (hload : ∀ {a : Ty} {e : Edge}, a.Over R → a.isFlagged = true → (t.Offers s a e ↔ e = .decay a))
    (hl : t.Layers s R q source.bare depth home Fit)
    (hbare : ∀ {d r c}, Fit d r c → d.flags = .none ∧ depth d ≤ 3)
    (hfirst : ∀ c : Chain, (c = .identity ∨ ∃ a, c = Chain.identity.extend (.decay a) range) →
      Fit (s.form source.bare) range c) :
    ∃ depth' home' Fit', t.Layers s R q source depth' home' Fit' ∧
      Fit' (s.form source) range .identity ∧
      (∀ {d r c}, Fit' d r c → (d = s.form source ∧ r = range) ∨ Fit d r c) ∧
      ∀ {d r c}, Fit d r c → Fit' d r c ∧ depth' d ≤ depth d + 1 := by
  cases hf : source.isFlagged with
  | false =>
    rw [Ty.bare_eq_self hf] at hl hfirst
    exact ⟨depth, home, Fit, hl, hfirst _ (.inl rfl), .inr, fun hd => ⟨hd, Nat.le_succ _⟩⟩
  | true =>
    refine ⟨_, _, _, hl.load hf hload hbare fun a => hfirst _ (.inr ⟨a, rfl⟩),
      .inl ⟨rfl, rfl, rfl⟩, fun h => h.imp_left fun h => ⟨h.1, h.2.1⟩, fun hd => ⟨.inr hd, ?_⟩⟩
    exact (if_pos (hbare hd).1).le

end CastTable

/-! ### The builtin types among forms -/

/-- The builtin type of a form. -/
def Form.value? : Form → Option Ty
  | .scalar f k n m => Builtin.values.find? fun v =>
      v.flags = f ∧ v.scalar?.any fun c => c.kind = k ∧ c.size = n ∧ c.alignment = m
  | _ => none

/-- Whether what is behind a pointer may be written to. -/
def Form.writes : Form → Bool
  | .pointer _ p => p.flags.mutable
  | _ => false

namespace Builtin

variable {s : Structs} {R : StructRef → Prop} {a b base v w : Ty} {e : Edge} {d : Form}

theorem value?_form (hv : v ∈ values) : (s.form v).value? = some v := by
  have table : ∀ v ∈ values, (Structs.empty.form v).value? = some v := by decide
  obtain ⟨c, rfl, -⟩ := scalar_of_mem (mem_all_of_values hv)
  exact table _ hv

/-- Whether one conversion leads from a builtin type to another. -/
def converts (a b : Ty) : Bool :=
  castGroups.any fun g => g.source = a && g.edges.any (·.destination = b)

/-- The number of conversions from a builtin type to another. -/
def hops (a b : Ty) : Nat := if b = a then 0 else if converts a b then 1 else 2

/-- The type from which another is entered on the way from `a`. -/
def through (a b : Ty) : Ty := if converts a b then a else u8

/-- A conversion leads one hop further, through its source, or not further at all. -/
theorem converts_step (hv : v ∈ values) (ha : a ∈ values) (hav : a = v ∨ a ≠ bool) (hb : b ∈ values)
    (h : converts a b = true) : b ≠ bool ∧
      ((through v b = a ∧ hops v b = hops v a + 1) ∨ hops v b ≤ hops v a) := by
  have table : ∀ v ∈ values, ∀ a ∈ values, a = v ∨ a ≠ bool → ∀ b ∈ values, converts a b = true →
      b ≠ bool ∧ ((through v b = a ∧ hops v b = hops v a + 1) ∨ hops v b ≤ hops v a) := by
    decide +kernel
  exact table v hv a ha hav b hb h

/-- Every type is entered by a conversion. -/
theorem converts_through (hv : v ∈ values) (hb : b ∈ values) (hne : b ≠ v) (hbool : b ≠ bool) :
    converts (through v b) b = true ∧ through v b ∈ values ∧
      hops v (through v b) + 1 = hops v b ∧ (through v b = v ∨ through v b ≠ bool) := by
  have table : ∀ v ∈ values, ∀ b ∈ values, b ≠ v → b ≠ bool →
      converts (through v b) b = true ∧ through v b ∈ values ∧
        hops v (through v b) + 1 = hops v b ∧ (through v b = v ∨ through v b ≠ bool) := by
    decide +kernel
  exact table v hv b hb hne hbool

theorem hops_self (v : Ty) : hops v v = 0 := if_pos rfl

theorem hops_le (v b : Ty) : hops v b ≤ 2 := by
  unfold hops
  split
  · exact Nat.zero_le 2
  · split
    · exact Nat.le_succ 1
    · exact Nat.le_refl 2

/-! ### All conversions of a value -/

theorem usable_explicit (e : Edge) (range : Range) : e.usable range true = true := by
  unfold Edge.usable
  split
  · rfl
  · rfl
  · rfl

theorem length_castGroups : ∀ g ∈ castGroups, ∀ e ∈ g.edges, e.weight.length.toNat = 1 := by
  decide +kernel

/-- A conversion of a value is a single step. -/
theorem offers_step (hR : s.Tells R) (ha : a.Over R) (hf : a.isFlagged = false)
    (ho : casts.Offers s a e) : e.weight.length.toNat = 1 ∧
      ((∃ v ∈ values, s.form a = s.form v ∧ e.destination ∈ values ∧
          converts v e.destination = true) ∨
        ∃ stamp p, a = .pointer .none stamp p ∧
          ((p.isMutable = true ∧ e.destination = .pointerTo p.notMutable) ∨
            e.destination = bool)) := by
  rcases offers_cases hR ha hf ho with ⟨g, hg, form, he⟩ | ⟨stamp, p, rfl, ⟨hm, rfl⟩ | rfl⟩
  · obtain ⟨hsource, hedges⟩ := mem_castGroups hg
    refine ⟨length_castGroups g hg e he,
      .inl ⟨g.source, hsource, form, (hedges e he).1.destination, ?_⟩⟩
    rw [converts, List.any_eq_true]
    refine ⟨g, hg, ?_⟩
    rw [decide_eq_true rfl, Bool.true_and, List.any_eq_true]
    exact ⟨e, he, decide_eq_true rfl⟩
  · exact ⟨rfl, .inr ⟨stamp, p, rfl, .inl ⟨hm, rfl⟩⟩⟩
  · exact ⟨rfl, .inr ⟨stamp, p, rfl, .inr rfl⟩⟩

/-- Where a conversion leads from one builtin type to another, it is offered. -/
theorem offers_of_converts (hR : s.Tells R) (ha : a.Over R) (hf : s.form a = s.form v)
    (h : converts v w = true) :
    ∃ e, casts.Offers s a e ∧ e.weight.length.toNat = 1 ∧ e.destination = w := by
  obtain ⟨g, hg, h⟩ := List.any_eq_true.mp h
  rw [Bool.and_eq_true, List.any_eq_true] at h
  obtain ⟨hsource, e, he, hd⟩ := h
  obtain rfl := of_decide_eq_true hsource
  have hc := (Structs.compare_eq_true_iff hR ha ((casts_grouped s R).source g hg)).mpr hf
  exact ⟨e, .inl ⟨g, hg, hc, he⟩, length_castGroups g hg e he, of_decide_eq_true hd⟩

theorem offers_test {stamp : Stamp} {p : Ty} :
    ∃ e, casts.Offers s (.pointer .none stamp p) e ∧ e.weight.length.toNat = 1 ∧
      e.destination = bool :=
  ⟨_, .inr (.inl ⟨.pointerToBool bool, .tail _ (.head _), rfl⟩),
    rfl, rfl⟩

theorem offers_load (hR : s.Tells R) (ha : a.Over R) (hf : a.isFlagged = true) :
    casts.Offers s a e ↔ e = .decay a :=
  ⟨offers_flagged hR ha hf, fun h => .inr (.inr ⟨hf, h⟩)⟩

/-! ### Layers of the builtin conversions -/

/-- The number of conversions from a value of one form to another. -/
def depthFrom (base d : Form) : Nat :=
  match base.value?, d.value? with
  | some v, some w => hops v w
  | none, some w => 1 + hops bool w
  | _, none => if d.writes = base.writes then 0 else 1

/-- The form from which another is entered. -/
def homeFrom (s : Structs) (base d : Form) : Form :=
  match base.value?, d.value? with
  | some v, some w => s.form (through v w)
  | none, some w => if w = bool then base else s.form (through bool w)
  | _, none => base

/-- The forms that a value can be converted to, in any number of steps. -/
inductive Below (s : Structs) (base : Ty) : Form → Prop
  | self : Below s base (s.form base)
  | converted {v w : Ty} (hv : v ∈ values) (h : s.form base = s.form v) (hw : w ∈ values)
      (hb : w ≠ bool) : Below s base (s.form w)
  | loosened {stamp : Stamp} {p : Ty} (h : base = .pointer .none stamp p)
      (hm : p.isMutable = true) :
      Below s base (s.form (.pointerTo p.notMutable))
  | tested {stamp : Stamp} {p w : Ty} (h : base = .pointer .none stamp p) (hw : w ∈ values) :
      Below s base (s.form w)

theorem depthFrom_self (d : Form) : depthFrom d d = 0 := by
  unfold depthFrom
  cases d.value? with
  | none => exact if_pos rfl
  | some v => exact hops_self v

theorem depthFrom_values (hv : v ∈ values) (hw : w ∈ values) :
    depthFrom (s.form v) (s.form w) = hops v w := by
  rw [depthFrom, value?_form hv, value?_form hw]

theorem homeFrom_values (hv : v ∈ values) (hw : w ∈ values) :
    homeFrom s (s.form v) (s.form w) = s.form (through v w) := by
  rw [homeFrom, value?_form hv, value?_form hw]

section Pointer

variable {f : Flags} {stamp : Stamp} {p : Ty}

/-- A pointer loses `mut` in one conversion. -/
theorem depthFrom_loosened (hm : p.isMutable = true) :
    depthFrom (s.form (.pointer f stamp p)) (s.form (.pointerTo p.notMutable)) = 1 := by
  refine if_neg ?_
  show (s.form p.notMutable).flags.mutable ≠ (s.form p).flags.mutable
  rw [Structs.flags_form, Structs.flags_form, Ty.notMutable, Ty.flags_withFlags]
  show false ≠ p.isMutable
  rw [hm]
  exact Bool.false_ne_true

theorem depthFrom_tested (hw : w ∈ values) :
    depthFrom (s.form (.pointer f stamp p)) (s.form w) = 1 + hops bool w := by
  rw [depthFrom, value?_form hw]
  rfl

theorem homeFrom_tested (hw : w ∈ values) :
    homeFrom s (s.form (.pointer f stamp p)) (s.form w) =
      if w = bool then s.form (.pointer f stamp p) else s.form (through bool w) := by
  rw [homeFrom, value?_form hw]
  rfl

end Pointer

/-- Nothing lies deeper than three conversions. -/
theorem Below.shallow (h : Below s base d) : depthFrom (s.form base) d ≤ 3 := by
  cases h with
  | self =>
    rw [depthFrom_self]
    exact Nat.zero_le 3
  | @converted v w hv h hw _ =>
    rw [h, depthFrom_values hv hw]
    exact Nat.le_succ_of_le (hops_le v w)
  | loosened h hm =>
    rw [h, depthFrom_loosened hm]
    exact Nat.le_add_left 1 2
  | @tested stamp p w h hw =>
    rw [h, depthFrom_tested hw]
    have := hops_le bool w
    omega

/-- Only the value itself lies at the top. -/
theorem Below.eq_self (h : Below s base d) (hz : depthFrom (s.form base) d = 0) :
    d = s.form base := by
  cases h with
  | self => rfl
  | @converted v w hv h hw _ =>
    rw [h, depthFrom_values hv hw] at hz
    unfold hops at hz
    split at hz
    · next hwv => rw [hwv, h]
    · split at hz <;> cases hz
  | loosened h hm =>
    rw [h, depthFrom_loosened hm] at hz
    cases hz
  | tested h hw =>
    rw [h, depthFrom_tested hw] at hz
    omega

/-- What lies below a value is no storage. -/
theorem Below.flags (hf : base.isFlagged = false) (h : Below s base d) : d.flags = .none := by
  have value : ∀ {w : Ty}, w ∈ values → (s.form w).flags = .none := by
    intro w hw
    rw [Structs.flags_form]
    exact Ty.flags_eq_none (Ty.isFlagged_of_mem (mem_all_of_values hw))
  cases h with
  | self =>
    rw [Structs.flags_form]
    exact Ty.flags_eq_none hf
  | converted _ _ hw _ => exact value hw
  | loosened _ _ => rfl
  | tested _ hw => exact value hw

theorem Below.isFlagged (hf : base.isFlagged = false) (h : Below s base (s.form a)) :
    a.isFlagged = false := by
  have hflags := h.flags hf
  rw [Structs.flags_form] at hflags
  rw [Ty.isFlagged, Ty.isReference, Ty.isMutable, hflags]
  rfl

/-- One conversion out of the value itself. -/
theorem step_self (hR : s.Tells R) (hbase : base.isFlagged = false) (ha : a.Over R)
    (haf : s.form a = s.form base) (ho : casts.Offers s a e) :
    Below s base (s.form e.destination) ∧ homeFrom s (s.form base) (s.form e.destination) =
      s.form base ∧
      depthFrom (s.form base) (s.form e.destination) = 1 := by
  have hf : a.isFlagged = false := (Structs.isFlagged_eq_of_form haf).trans hbase
  obtain ⟨-, ⟨v, hv, hform, hd, hconv⟩ | ⟨stamp, p, rfl, hd⟩⟩ := offers_step hR ha hf ho
  · have hbv : s.form base = s.form v := haf.symm.trans hform
    have irrefl : ∀ v ∈ values, converts v v = false := by decide +kernel
    have hne : e.destination ≠ v := by
      intro h
      rw [h, irrefl v hv] at hconv
      cases hconv
    refine ⟨.converted hv hbv hd (converts_step hv hv (.inl rfl) hd hconv).1, ?_, ?_⟩
    · rw [hbv, homeFrom_values hv hd, through, if_pos hconv]
    · rw [hbv, depthFrom_values hv hd, hops, if_neg hne, if_pos hconv]
  · obtain ⟨stamp', p', rfl, hp⟩ := pointer_of_form haf.symm
    rcases hd with ⟨hm, hd⟩ | hd
    · have hm' : p'.isMutable = true := (isMutable_eq_of_form hp).trans hm
      rw [hd, ← form_loosened hp]
      exact ⟨.loosened rfl hm', rfl, depthFrom_loosened hm'⟩
    · rw [hd]
      refine ⟨.tested rfl bool_mem, ?_, ?_⟩
      · rw [homeFrom_tested bool_mem, if_pos rfl]
      · rw [depthFrom_tested bool_mem, hops_self]

/-- One conversion out of a builtin type that was reached leads one layer down, or not down. -/
theorem step_value (hR : s.Tells R) (ha : a.Over R) (haf : s.form a = s.form w) (hw : w ∈ values)
    (hv : v ∈ values) (hwv : w = v ∨ w ≠ bool) (ho : casts.Offers s a e) :
    e.destination ∈ values ∧ e.destination ≠ bool ∧
      ((through v e.destination = w ∧ hops v e.destination = hops v w + 1) ∨
        hops v e.destination ≤ hops v w) := by
  have hf : a.isFlagged = false :=
    (Structs.isFlagged_eq_of_form haf).trans (Ty.isFlagged_of_mem (mem_all_of_values hw))
  obtain ⟨-, ⟨u, hu, hform, hd, hconv⟩ | ⟨stamp, p, rfl, -⟩⟩ := offers_step hR ha hf ho
  · obtain rfl : w = u :=
      eq_of_form (mem_all_of_values hw) (mem_all_of_values hu) (haf.symm.trans hform)
    exact ⟨hd, converts_step hv hw hwv hd hconv⟩
  · obtain ⟨c, rfl, -⟩ := scalar_of_mem (mem_all_of_values hw)
    cases haf

/-- A conversion leads one layer down, from the home of what it leads to, or not down. -/
theorem Below.step (hR : s.Tells R) (hbase : base.isFlagged = false) (ha : a.Over R)
    (h : Below s base (s.form a)) (ho : casts.Offers s a e) :
    Below s base (s.form e.destination) ∧
      ((homeFrom s (s.form base) (s.form e.destination) = s.form a ∧
          depthFrom (s.form base) (s.form e.destination) = depthFrom (s.form base) (s.form a) + 1) ∨
        depthFrom (s.form base) (s.form e.destination) ≤ depthFrom (s.form base) (s.form a)) := by
  generalize hd : s.form a = d at h
  cases h with
  | self =>
    obtain ⟨below, hhome, hdepth⟩ := step_self hR hbase ha hd ho
    exact ⟨below, .inl ⟨hhome, by rw [hdepth, depthFrom_self]⟩⟩
  | @converted v w hv hbv hw hne =>
    obtain ⟨hd', hne', hcases⟩ := step_value hR ha hd hw hv (.inr hne) ho
    refine ⟨.converted hv hbv hd' hne', ?_⟩
    rw [hbv, homeFrom_values hv hd', depthFrom_values hv hd', depthFrom_values hv hw]
    exact hcases.imp_left fun h => ⟨by rw [h.1], h.2⟩
  | @loosened stamp p hp hm =>
    subst hp
    have hf : a.isFlagged = false := (Structs.isFlagged_eq_of_form hd).trans rfl
    obtain ⟨-, ⟨v, hv, hform, -, -⟩ | ⟨stamp', p', rfl, ⟨hm', -⟩ | hd'⟩⟩ := offers_step hR ha hf ho
    · obtain ⟨c, rfl, -⟩ := scalar_of_mem (mem_all_of_values hv)
      cases hd.symm.trans hform
    · -- what is behind the pointer is not `mut` any more
      injection hd with _ hd
      rw [isMutable_eq_of_form hd, Ty.isMutable, Ty.notMutable, Ty.flags_withFlags] at hm'
      cases hm'
    · rw [hd', depthFrom_loosened hm, depthFrom_tested bool_mem, hops_self]
      exact ⟨.tested rfl bool_mem, .inr (Nat.le_refl 1)⟩
  | @tested stamp p w hp hw =>
    subst hp
    have hwb : w = bool ∨ w ≠ bool := Decidable.em _
    obtain ⟨hd', hne', hcases⟩ := step_value hR ha hd hw bool_mem hwb ho
    refine ⟨.tested rfl hd', ?_⟩
    rw [homeFrom_tested hd', if_neg hne', depthFrom_tested hd', depthFrom_tested hw]
    exact hcases.imp (fun h => ⟨by rw [h.1], by omega⟩) fun h => by omega

/-- What is not at the top is entered from its home. -/
theorem Below.up (hR : s.Tells R) (h : Below s base d) (hpos : 0 < depthFrom (s.form base) d) :
    depthFrom (s.form base) (homeFrom s (s.form base) d) + 1 = depthFrom (s.form base) d ∧
      Below s base (homeFrom s (s.form base) d) ∧
      ∀ {b : Ty}, b.Over R → s.form b = homeFrom s (s.form base) d →
        ∃ e, casts.Offers s b e ∧ e.weight.length.toNat = 1 ∧ s.form e.destination = d := by
  cases h with
  | self =>
    rw [depthFrom_self] at hpos
    exact absurd hpos (Nat.lt_irrefl 0)
  | @converted v w hv hbv hw hne =>
    rw [hbv, depthFrom_values hv hw] at hpos
    have hwv : w ≠ v := by
      rintro rfl
      rw [hops_self] at hpos
      exact Nat.lt_irrefl 0 hpos
    obtain ⟨hconv, hmem, hdepth, hor⟩ := converts_through hv hw hwv hne
    rw [hbv, homeFrom_values hv hw, depthFrom_values hv hw, depthFrom_values hv hmem]
    refine ⟨hdepth, ?_, ?_⟩
    · rcases hor with heq | hnb
      · rw [heq, ← hbv]
        exact .self
      · exact .converted hv hbv hmem hnb
    · intro b hb hbf
      obtain ⟨e, ho, hl, rfl⟩ := offers_of_converts hR hb hbf hconv
      exact ⟨e, ho, hl, rfl⟩
  | @loosened stamp p hp hm =>
    subst hp
    show depthFrom (s.form _) (s.form _) + 1 = _ ∧ Below s _ (s.form _) ∧ _
    rw [depthFrom_loosened hm, depthFrom_self]
    refine ⟨rfl, .self, ?_⟩
    intro b hb (hbf : s.form b = s.form (.pointer .none stamp p))
    obtain ⟨stamp', p', rfl, hp⟩ := pointer_of_form hbf
    exact ⟨_, offers_dropEdge ((isMutable_eq_of_form hp).trans hm), rfl, form_loosened hp⟩
  | @tested stamp p w hp hw =>
    subst hp
    rw [homeFrom_tested hw, depthFrom_tested hw]
    split
    · next hwb =>
      subst hwb
      rw [depthFrom_self, hops_self]
      refine ⟨rfl, .self, ?_⟩
      intro b hb hbf
      obtain ⟨stamp', p', rfl, -⟩ := pointer_of_form hbf
      obtain ⟨e, ho, hl, hd⟩ := @offers_test s stamp' p'
      exact ⟨e, ho, hl, by rw [hd]⟩
    · next hwb =>
      obtain ⟨hconv, hmem, hdepth, -⟩ := converts_through bool_mem hw hwb hwb
      rw [depthFrom_tested hmem]
      refine ⟨by omega, .tested rfl hmem, ?_⟩
      intro b hb hbf
      obtain ⟨e, ho, hl, rfl⟩ := offers_of_converts hR hb hbf hconv
      exact ⟨e, ho, hl, rfl⟩

/-- Any conversion that is asked for is allowed, whatever the range. -/
theorem layers_explicit {q : CastQuery} (hR : s.Tells R)
    (hbase : base.isFlagged = false) (hq : q.explicit = true) :
    casts.Layers s R q base (depthFrom (s.form base)) (homeFrom s (s.form base))
      fun d _ _ => Below s base d where
  start := depthFrom_self _
  root := Below.eq_self
  shallow h := Nat.le_succ_of_le h.shallow
  step ha h ho _ _ := by
    obtain ⟨below, hcases⟩ := h.step hR hbase ha ho
    exact ⟨(offers_step hR ha (h.isFlagged hbase) ho).1,
      hcases.imp (fun h => ⟨h.1, h.2, below⟩) fun h => ⟨h, .void, .identity, below⟩⟩
  up h hpos := by
    obtain ⟨hdepth, below, enter⟩ := h.up hR hpos
    refine ⟨hdepth, ⟨.void, .identity, below⟩, fun hb hbf _ => ?_⟩
    obtain ⟨e, ho, hw, hd⟩ := enter hb hbf
    exact ⟨e, ho, by rw [hq, usable_explicit], hw, hd⟩

end Builtin

/-! ### Conversions that nobody asks for -/

/-- No step but loading the value changes it, whatever value of its range it is. -/
def Step.Exact (range : Range) : List Step → Prop
  | [] => True
  | st :: sts =>
    (st.edge.action ≠ .decay → ∀ m v, range.Holds v →
      st.edge.action.perform? m st.edge.source st.edge.destination (.int v) = some (.int v)) ∧
    Exact st.range sts

/-- One more step that changes nothing. -/
theorem Step.exact_append {st : Step} : ∀ {range : Range} {sts : List Step}, Step.Exact range sts →
    Step.Exact (Step.rangeAfter range sts) [st] → Step.Exact range (sts ++ [st])
  | _, [], _, h => h
  | _, _ :: _, h, h' => by
    rw [rangeAfter_cons] at h'
    exact ⟨h.1, Step.exact_append h.2 h'⟩

/-- A chain of at most `n` steps that changes no value and leaves the range `r`. -/
structure Chain.Exact (range : Range) (n : Nat) (r : Range) (c : Chain) : Prop where
  short : c.steps.length ≤ n
  steps : Step.Exact range c.steps
  range_eq : Step.rangeAfter range c.steps = r

namespace Chain.Exact

variable {range r r' : Range} {n : Nat} {c : Chain} {e : Edge}

theorem identity : Exact range n range .identity := ⟨Nat.zero_le n, trivial, rfl⟩

/-- One more conversion that changes no value. -/
theorem extend (h : c.Exact range n r) (he : e.action ≠ .decay → ∀ m v, r.Holds v →
    e.action.perform? m e.source e.destination (.int v) = some (.int v)) :
    (c.extend e r').Exact range (n + 1) r' where
  short := by
    rw [Chain.extend, List.length_append]
    exact Nat.succ_le_succ h.short
  steps := Step.exact_append h.steps ⟨h.range_eq ▸ he, trivial⟩
  range_eq := by
    rw [Chain.extend, Step.rangeAfter_append]
    rfl

end Chain.Exact

namespace Builtin

variable {s : Structs} {R : StructRef → Prop} {base source : Ty} {range : Range} {q : CastQuery}

/-- What is reached without being asked for: the value itself, and what is one conversion behind
it. -/
inductive Beside (s : Structs) (base : Ty) (range : Range) : Form → Range → Chain → Prop
  | self {c : Chain} (hc : c.Exact range 1 range) : Beside s base range (s.form base) range c
  | converted {e : Edge} {range' : Range} {c : Chain} (ho : casts.Offers s base e)
      (hu : e.usable range false = true) (hr : s.rangeAfter e range = .ok range')
      (hc : c.Exact range 2 range') : Beside s base range (s.form e.destination) range' c

/-- What is reached without being asked for lies one layer down at most. -/
theorem Beside.below {r : Range} {c : Chain} {d : Form} (hR : s.Tells R) (hb : base.Over R)
    (hbase : base.isFlagged = false) (h : Beside s base range d r c) :
    Below s base d ∧ depthFrom (s.form base) d ≤ 1 := by
  cases h with
  | self _ => exact ⟨.self, (depthFrom_self _).trans_le (Nat.zero_le 1)⟩
  | converted ho _ _ _ =>
    obtain ⟨below, -, hdepth⟩ := step_self hR hbase hb rfl ho
    exact ⟨below, hdepth.le⟩

/-- Without being asked for, a value is converted once: a second conversion leads back to it, or to
where a single one leads as well. -/
theorem layers_implicit (hR : s.Tells R) (hb : base.Over R) (hbase : base.isFlagged = false)
    (hspans : range.Spans base) (hq : q.explicit = false) :
    casts.Layers s R q base (depthFrom (s.form base)) (homeFrom s (s.form base))
      (Beside s base range) := by
  have one : ∀ {e : Edge}, casts.Offers s base e →
    depthFrom (s.form base) (s.form e.destination) = 1 :=
    fun ho => (step_self hR hbase hb rfl ho).2.2
  -- at the top there is only the value, with the range it has
  have top : ∀ {d r c}, Beside s base range d r c → depthFrom (s.form base) d = 0 →
      d = s.form base ∧ r = range := by
    rintro d r c (hc | ⟨ho, -, -, -⟩) hz
    · exact ⟨rfl, rfl⟩
    · rw [one ho] at hz
      cases hz
  constructor
  case start => exact depthFrom_self _
  case root => exact fun h hz => (top h hz).1
  case shallow => exact fun h => (h.below hR hb hbase).2.trans (by decide)
  case step =>
    intro a e r r' c ha hfit ho hu hr
    rw [hq] at hu
    generalize hd : s.form a = d at hfit
    cases hfit with
    | self hc =>
      have hf : a.isFlagged = false := (Structs.isFlagged_eq_of_form hd).trans hbase
      obtain ⟨-, hhome, hdepth⟩ := step_self hR hbase ha hd ho
      obtain ⟨e', ho', hu', -, hde, hr'⟩ := implicit_transfer hR ha hf hb hd ho hu
      refine ⟨(implicit_leaves hR ha hf ho hu).2.2, .inl ⟨hhome, ?_, ?_⟩⟩
      · rw [hdepth, depthFrom_self]
      · rw [← hde]
        exact .converted ho' hu' (hr'.trans hr) (hc.extend fun _ m v hv =>
          exact_implicit hR ha hf (hspans.of_form hd.symm) ho hu m hv)
    | @converted e₁ range₁ _ ho₁ hu₁ hr₁ hc₁ =>
      -- a second conversion leads nowhere that one does not
      obtain ⟨hlen, -, hback | ⟨e₀, ho₀, hu₀, hd₀⟩⟩ :=
        implicit_again hR hb hbase hspans ha ho₁ hu₁ hr₁ hd ho hu
      · rw [hback, depthFrom_self]
        exact ⟨hlen, .inr ⟨Nat.zero_le _, range, _, .self .identity⟩⟩
      · obtain ⟨range₀, hr₀, -⟩ := rangeAfter_implicit hR hb hbase hspans ho₀ hu₀
        rw [← hd₀, one ho₀, one ho₁]
        exact ⟨hlen, .inr ⟨Nat.le_refl 1, range₀, _, .converted ho₀ hu₀ hr₀ (.extend .identity
          fun _ m v hv => exact_implicit hR hb hbase hspans ho₀ hu₀ m hv)⟩⟩
  case up =>
    rintro d r c (hc | ⟨ho, hu, hr, hc⟩) hpos
    · rw [depthFrom_self] at hpos
      exact absurd hpos (Nat.lt_irrefl 0)
    · obtain ⟨-, hhome, hdepth⟩ := step_self hR hbase hb rfl ho
      rw [hhome, hdepth, depthFrom_self]
      refine ⟨rfl, ⟨range, _, .self .identity⟩, ?_⟩
      intro b r' c' hb' hbf hfit
      obtain ⟨-, rfl⟩ := top hfit (depthFrom_self _)
      obtain ⟨e', ho', hu', hlen, hde, -⟩ := implicit_transfer hR hb hbase hb' hbf.symm ho hu
      exact ⟨e', ho', hq ▸ hu', hlen, hde⟩

/-- The layers of what is reached without being asked for. -/
theorem layers_loaded (hR : s.Tells R) (hs : source.Over R) (hspans : range.Spans source)
    (hq : q.explicit = false) :
    ∃ depth home Fit, casts.Layers s R q source depth home Fit ∧
      Fit (s.form source) range .identity ∧
      (∀ {d r c}, Fit d r c → (d = s.form source ∧ r = range) ∨ Beside s source.bare range d r c) ∧
      ∀ {d r c}, Beside s source.bare range d r c → Fit d r c ∧ depth d ≤ 2 := by
  have hbare : source.bare.Over R := Ty.over_withFlags.mpr hs
  have hflag : source.bare.isFlagged = false := Ty.isFlagged_bare source
  obtain ⟨depth, home, Fit, hl, hfirst, back, into⟩ :=
    (layers_implicit hR hbare hflag hspans.bare hq).loaded source range (offers_load hR)
      (fun h => ⟨(h.below hR hbare hflag).1.flags hflag, (h.below hR hbare hflag).1.shallow⟩)
      (by
        rintro c (rfl | ⟨a, rfl⟩)
        · exact .self .identity
        · exact .self (Chain.Exact.identity.extend fun h => absurd rfl h))
  exact ⟨depth, home, Fit, hl, hfirst, back, fun h =>
    ⟨(into h).1, (into h).2.trans (Nat.succ_le_succ (h.below hR hbare hflag).2)⟩⟩

/-- No type is tied that a search over the builtin conversions reaches. -/
theorem untied_of_explored {rs : List Reached} {taken : List (Nat × Edge)} (hR : s.Tells R)
    (hs : source.Over R) (hmode : q.explicit = true ∨ range.Spans source)
    (h : casts.Explored s q source range rs taken) : ∀ x ∈ rs, x.tied = false := by
  have hflag : source.bare.isFlagged = false := Ty.isFlagged_bare source
  obtain ⟨depth, home, Fit, hl, hfirst⟩ : ∃ depth home Fit,
      casts.Layers s R q source depth home Fit ∧ Fit (s.form source) range .identity := by
    cases hq : q.explicit with
    | true =>
      obtain ⟨depth, home, Fit, hl, hfirst, -⟩ :=
        (layers_explicit hR hflag hq).loaded source range (offers_load hR)
          (fun h => ⟨h.flags hflag, h.shallow⟩) fun _ _ => .self
      exact ⟨depth, home, Fit, hl, hfirst⟩
    | false =>
      have hspans := hmode.resolve_left (by rw [hq]; exact Bool.false_ne_true)
      obtain ⟨depth, home, Fit, hl, hfirst, -⟩ := layers_loaded hR hs hspans hq
      exact ⟨depth, home, Fit, hl, hfirst⟩
  exact (CastTable.layered_of_explored hl hR (casts_grouped s R) hs hfirst h).untied

end Builtin

end Gauge
