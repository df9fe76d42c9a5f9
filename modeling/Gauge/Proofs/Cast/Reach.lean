import Gauge.Proofs.Cast.Defined
import Gauge.Proofs.Cast.Layers

/-!
# Proofs — conversions to pointers and to storage

Whatever a search is asked for, it reaches the source, the type of the value that is stored in it,
the same pointer without the right to write, and builtin types (`Builtin.reached_of_explored`).  So
no conversion makes a pointer of anything else, and none makes storage.  As long as some value lies
in the range a search has an answer, and what a pointer can be converted to is found
(`Builtin.search_yields_iff`, `Builtin.search_untied`).
-/

namespace Gauge

namespace Range

/-- Some value lies in the range. -/
def Filled : Range → Prop
  | .unsigned lo hi | .signed lo hi => lo ≤ hi
  | .bools b | .pointer _ b => b.Nonempty
  | .array _ | .void => True

variable {s : Structs} {t : Ty} {r : Range} {lo hi : Int}

theorem Filled.bounds (h : r.Filled) (hb : r.bounds? = some (lo, hi)) : lo ≤ hi := by
  cases r with
  | unsigned a b =>
    cases hb
    exact Int.ofNat_le.mpr h
  | signed a b =>
    cases hb
    exact h
  | bools b =>
    obtain ⟨x, y⟩ := b
    cases hb
    cases x <;> cases y <;> first | decide | cases h
  | pointer _ _ | array _ | void => cases hb

theorem SuitsScalar.filled {c : Scalar} (h : r.SuitsScalar c) : r.Filled := by
  unfold SuitsScalar at h
  cases hk : c.kind <;> simp only [hk] at h
  case void =>
    subst h
    trivial
  case bool =>
    obtain ⟨b, rfl, hb⟩ := h
    exact hb
  case signedInt =>
    obtain ⟨lo, hi, rfl, _, _, _, _, hle, _⟩ := h
    exact hle
  all_goals
    obtain ⟨lo, hi, rfl, _, _, _, _, hle, _⟩ := h
    exact Int.ofNat_le.mp hle

/-- A range of values of a type has some. -/
theorem Suits.filled (h : r.Suits s t) : r.Filled := by
  cases t with
  | scalar _ _ => exact (suits_scalar.mp h).filled
  | pointer _ _ _ =>
    obtain ⟨_, _, rfl, -, hb⟩ := suits_pointer.mp h
    exact hb
  | struct _ _ =>
    obtain ⟨_, rfl, -⟩ := suits_struct.mp h
    trivial
  | function _ _ _ _ _ => exact (not_suits_function h).elim

/-- All values of such a range are values of the type. -/
theorem Suits.spans (h : r.Suits s t) : r.Spans t := by
  intro low high hb
  obtain ⟨lo, hi, hr, -, bounds⟩ := Suits.operand hb h
  exact ⟨lo, hi, hr, bounds⟩

end Range

namespace Builtin

variable {s : Structs} {R : StructRef → Prop} {a source : Ty} {e : Edge} {range : Range}
  {q : CastQuery} {rs : List Reached} {taken : List (Nat × Edge)}

/-- Every conversion can tell the range of its result, and some value lies in it. -/
theorem rangeAfter_filled (ho : casts.Offers s a e) (hr : range.Filled) :
    ∃ range', s.rangeAfter e range = .ok range' ∧ range'.Filled := by
  have preserved : e.rule = .preserve → ∃ range', s.rangeAfter e range = .ok range' ∧
      range'.Filled := by
    intro hrule
    refine ⟨range, ?_, hr⟩
    unfold Structs.rangeAfter
    rw [hrule]
    rfl
  rcases ho with ⟨g, hg, -, he⟩ | ⟨f, hf, hfe⟩ | ⟨-, rfl⟩
  · obtain ⟨conversion, -⟩ := (mem_castGroups hg).2 e he
    obtain ⟨low, high, hb⟩ := conversion.bounds
    have hd := mem_all_of_values conversion.destination
    unfold Structs.rangeAfter
    rw [conversion.rule, RangeRule.convert]
    -- the structs play no part in a conversion of numbers
    have plain : s.convertedRange range e.destination =
        Structs.empty.convertedRange range e.destination := by
      obtain ⟨c, hc, -⟩ := scalar_of_mem hd
      rw [hc]
      rfl
    have none : Structs.empty.Native fun _ => False := nofun
    rw [plain]
    cases hrb : range.bounds? with
    | none =>
      refine ⟨Structs.empty.rangeOf e.destination, ?_,
        (Structs.rangeOf_suits none (Ty.native_of_mem hd)).filled⟩
      simp only [Structs.convertedRange, hrb]
    | some b =>
      obtain ⟨range', hr', hsuits⟩ := Structs.convertedRange_suits none (word_of_mem hd)
        (Ty.native_of_mem hd) hb hrb (hr.bounds hrb)
      exact ⟨range', hr', hsuits.filled⟩
  · simp only [casts, List.mem_cons, List.not_mem_nil, or_false] at hf
    obtain ⟨stamp, p, rfl, -⟩ := CastFamily.edge?_cases hfe
    rcases hf with rfl | rfl
    · simp only [CastFamily.edge?, Flags.none] at hfe
      split at hfe
      · cases hfe
        exact preserved rfl
      · cases hfe
    · cases hfe
      cases range with
      | pointer p b => exact ⟨.bools b, rfl, hr⟩
      | _ => exact ⟨.bools .any, rfl, Bools.nonempty_any⟩
  · exact preserved rfl

/-- Everything but the source itself lies behind the value that is stored in it. -/
theorem reached_of_explored (hR : s.Tells R) (hs : source.Over R) (hr : range.Filled)
    (h : casts.Explored s q source range rs taken) : ∀ x ∈ rs,
      x.range.Filled ∧ (s.form x.type = s.form source ∨ Below s source.bare (s.form x.type)) := by
  have hbare : source.bare.isFlagged = false := Ty.isFlagged_bare source
  refine h.all (P := fun a r => r.Filled ∧ (s.form a = s.form source ∨
    Below s source.bare (s.form a)))
    hR (casts_grouped s R) hs ⟨hr, .inl rfl⟩ (fun ha hb _ => ⟨hb.1, ha.2⟩) ?_
  rintro a e r r' ha ⟨hr, hd⟩ ho hr'
  obtain ⟨_, hr'', hfilled⟩ := rangeAfter_filled ho hr
  cases hr'.symm.trans hr''
  refine ⟨hfilled, .inr ?_⟩
  rcases hd with hd | hd
  · cases hf : source.isFlagged with
    | true =>
      have haf : a.isFlagged = true := (Structs.isFlagged_eq_of_form hd).trans hf
      obtain rfl := offers_flagged hR ha haf ho
      rw [Edge.decay, Structs.form_bare_eq hd]
      exact .self
    | false =>
      rw [← Ty.bare_eq_self hf] at hd
      exact (step_self hR hbare ha hd ho).1
  · exact (hd.step hR hbare ha ho).1

theorem ranged_of_filled (hR : s.Tells R) (hs : source.Over R) (hr : range.Filled) :
    casts.Ranged s q source range := by
  intro rs taken h x hx e ht
  obtain ⟨range', hr', -⟩ := rangeAfter_filled ht.offered (reached_of_explored hR hs hr h x hx).1
  exact ⟨range', hr'⟩

/-! ### What is found -/

/-- What a pointer is made of: an equal one, one that is stored, or one that could also write. -/
inductive Yields (s : Structs) (source destination : Ty) : Prop
  | same (h : s.form source = s.form destination)
  | loaded (hf : destination.isFlagged = false) (h : s.form source.bare = s.form destination)
  | loosened {stamp : Stamp} {p : Ty} (hf : destination.isFlagged = false)
      (h : source.bare = .pointer .none stamp p) (hm : p.isMutable = true)
      (h' : s.form destination = s.form (.pointerTo p.notMutable))

/-- Pointers that lie below a value are those that it yields. -/
theorem Below.yields {d : Ty} (hp : d.isPointer = true) (h : Below s source.bare (s.form d)) :
    Yields s source d := by
  have hf : d.isFlagged = false := h.isFlagged (Ty.isFlagged_bare source)
  -- a builtin type is no pointer
  have scalar : ∀ {w : Ty}, w ∈ values → s.form d ≠ s.form w := by
    intro w hw h
    obtain ⟨c, rfl, -⟩ := scalar_of_mem (mem_all_of_values hw)
    cases d with
    | pointer _ _ _ => cases h
    | scalar _ _ | function _ _ _ _ _ | struct _ _ => cases hp
  generalize hd : s.form d = form at h
  cases h with
  | self => exact .loaded hf hd.symm
  | converted _ _ hw _ => exact absurd hd (scalar hw)
  | loosened h hm => exact .loosened hf h hm hd
  | tested _ hw => exact absurd hd (scalar hw)

/-- Where all types are settled, all that a pointer yields was reached: the limit allows for loading
it and for one conversion. -/
theorem not_yields_of_settled {destination : Ty} (hl : 3 ≤ q.limit.length.toNat)
    (hc : casts.Charted s R q source range rs taken) (done : casts.Done s q rs taken)
    (hall : ∀ x ∈ rs, x.settled = true)
    (haway : ∀ x ∈ rs, s.form x.type ≠ s.form destination) : ¬ Yields s source destination := by
  have go : ∀ {k n : Nat} {x : Reached} {e : Edge}, rs[k]? = some x → casts.Offers s x.type e →
      e.policy = .implicit → e.weight.length.toNat = 1 → x.chain.weight.length.toNat ≤ n → n ≤ 1 →
      ∃ y ∈ rs, s.form y.type = s.form e.destination ∧ y.chain.weight.length.toNat ≤ n + 1 := by
    intro k n x e hx ho hp hw hn hle
    have hlen : (x.chain.weight + e.weight).length.toNat ≤ n + 1 := by
      rw [Weight.length_add, hw]
      omega
    have ht : casts.Takes s q x e := by
      refine ⟨ho, ?_, Nat.le_of_lt (Weight.rank_lt_of_length (by omega))⟩
      unfold Edge.usable
      rw [hp]
    obtain ⟨_, hx', -, -, y, hy, hf, hrank⟩ :=
      hc.taken k e (done k x e hx (hall x (List.mem_of_getElem? hx)) ht)
    cases hx'.symm.trans hx
    exact ⟨y, hy, hf, (CastTable.length_le_of_rank_le hrank).trans hlen⟩
  obtain ⟨x, hx, hxf, hxc⟩ := hc.start
  have hzero : x.chain.weight.length.toNat ≤ 0 := by
    rw [hxc]
    exact Nat.le_refl 0
  obtain ⟨z, hz, hzf, hzl⟩ : ∃ z ∈ rs, s.form z.type = s.form source.bare ∧
      z.chain.weight.length.toNat ≤ 1 := by
    cases hf : source.isFlagged with
    | false =>
      refine ⟨x, List.mem_of_getElem? hx, ?_, Nat.le_succ_of_le hzero⟩
      rw [Ty.bare_eq_self hf, hxf]
    | true =>
      have hxflag := (Structs.isFlagged_eq_of_form hxf).trans hf
      obtain ⟨z, hz, hzf, hzl⟩ := go hx (e := .decay x.type) (.inr (.inr ⟨hxflag, rfl⟩)) rfl rfl
        hzero (Nat.zero_le 1)
      exact ⟨z, hz, hzf.trans (Structs.form_bare_eq hxf), hzl⟩
  rintro (h | ⟨-, h⟩ | ⟨-, h, hm, h'⟩)
  · exact haway x (List.mem_of_getElem? hx) (hxf.trans h)
  · exact haway z hz (hzf.trans h)
  · rw [h] at hzf
    obtain ⟨stamp, p, hzt, hp⟩ := pointer_of_form hzf
    obtain ⟨k, hk⟩ := List.mem_iff_getElem?.mp hz
    have ho : casts.Offers s z.type (dropEdge z.type p) := by
      rw [hzt]
      exact offers_dropEdge ((isMutable_eq_of_form hp).trans hm)
    obtain ⟨y, hy, hyf, -⟩ := go hk ho rfl rfl hzl (Nat.le_refl 1)
    exact haway y hy ((hyf.trans (form_loosened hp)).trans h'.symm)

/-- What is found is not ambiguous, if it was asked for or the range is one of the source's type. -/
theorem search_untied (hR : s.Tells R) (hs : source.Over R) (hd : q.destination.Over R)
    (hr : range.Filled) (hmode : q.explicit = true ∨ range.Spans source) {c : Chain} {tied : Bool}
    (h : (casts.search s source range q).outcome = .ok (.chain c tied)) : tied = false := by
  obtain ⟨rs, taken, found, hrun, hex, -, hends⟩ :=
    CastTable.search_explored hR (casts_grouped s R) hs hd (ranged_of_filled hR hs hr)
  cases h.symm.trans hrun
  cases hends with
  | @found place r hn _ =>
    exact untied_of_explored hR hs hmode hex r (List.mem_of_getElem? (Reached.nearest_spec hn).1)

/-- A search for a pointer finds it exactly if it is one that the source yields, and a search for
storage finds nothing but the source. -/
theorem search_yields_iff (hR : s.Tells R) (hs : source.Over R) (hd : q.destination.Over R)
    (hr : range.Filled) (hl : 3 ≤ q.limit.length.toNat) :
    ∃ found, (casts.search s source range q).outcome = .ok found ∧
      (q.destination.isPointer = true →
        ((∃ c tied, found = .chain c tied) ↔ Yields s source q.destination)) ∧
      (q.destination.isFlagged = true → ∀ c tied, found = .chain c tied →
        s.form source = s.form q.destination) := by
  obtain ⟨rs, taken, found, hrun, hex, done, hends⟩ :=
    CastTable.search_explored hR (casts_grouped s R) hs hd (ranged_of_filled hR hs hr)
  have hc := hex.charted hR (casts_grouped s R) hs
  refine ⟨found, hrun, ?_⟩
  cases hends with
  | @found place r hn hrd =>
    have hmem := List.mem_of_getElem? (Reached.nearest_spec hn).1
    obtain ⟨-, hreach⟩ := reached_of_explored hR hs hr hex r hmem
    rw [hrd] at hreach
    refine ⟨fun hp => ⟨fun _ => ?_, fun _ => ⟨_, _, rfl⟩⟩, fun hf _ _ _ => ?_⟩
    · exact hreach.elim (fun h => .same h.symm) (Below.yields hp)
    · rcases hreach with h | h
      · exact h.symm
      · cases hf.symm.trans (h.isFlagged (Ty.isFlagged_bare source))
  | exhausted hall =>
    refine ⟨fun hp => ⟨fun h => ?_, fun h => ?_⟩, fun _ _ _ h => ?_⟩
    · obtain ⟨_, _, h⟩ := h
      cases h
    · exact absurd h (not_yields_of_settled hl hc done hall fun x hx => hc.away x hx (hall x hx))
    · cases h

end Builtin

end Gauge
