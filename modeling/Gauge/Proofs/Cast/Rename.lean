import Mathlib.Data.List.Basic
import Gauge.Proofs.Builtin
import Gauge.Proofs.Ty.Rename

/-!
# Proofs — conversions under other numbers

The builtin conversions start and end at scalars and pointers, and say nothing of numbers.  So a
search from a type with other numbers takes the same way as before (`Structs.Renamed.search`), step
by step: what is reached is what was reached, under its other numbers (`Reached.rename`).
-/

namespace Gauge

variable (ρ : Renaming)

/-! ### Edges and chains -/

def Edge.rename (e : Edge) : Edge :=
  { e with source := e.source.rename ρ, destination := e.destination.rename ρ }

def Step.rename (s : Step) : Step := ⟨s.edge.rename ρ, s.range⟩

def Chain.rename (c : Chain) : Chain := ⟨c.steps.map (Step.rename ρ), c.weight⟩

def Found.rename : Found → Found
  | .chain c tied => .chain (c.rename ρ) tied
  | .unreachable => .unreachable

def Reached.rename (r : Reached) : Reached :=
  { r with type := r.type.rename ρ, chain := r.chain.rename ρ }

def CastQuery.rename (q : CastQuery) : CastQuery := { q with destination := q.destination.rename ρ }

variable {ρ} {s s' : Structs}

theorem Range.fits_rename (r : Range) (t : Ty) : r.fits (t.rename ρ) = r.fits t := by
  rw [fits, fits, Ty.isBool_rename, Ty.bounds?_rename]

theorem Range.integer_rename (t : Ty) (lo hi : Int) :
    integer (t.rename ρ) lo hi = integer t lo hi := by
  simp only [integer, ofBounds, Ty.bounds?_rename, Ty.text_rename, Ty.isSigned_rename]

theorem Range.literal_rename (t : Ty) (v : Int) : literal (t.rename ρ) v = literal t v := by
  rw [literal, literal, Ty.isBool_rename, integer_rename]

theorem Edge.usable_rename (e : Edge) (r : Range) (explicit : Bool) :
    (e.rename ρ).usable r explicit = e.usable r explicit := by
  simp only [usable, rename, Range.fits_rename]

theorem Chain.destination?_rename (c : Chain) :
    (c.rename ρ).destination? = c.destination?.map (Ty.rename ρ) := by
  simp only [destination?, rename, List.getLast?_map, Option.map_map]
  rfl

theorem Chain.range?_rename (c : Chain) : (c.rename ρ).range? = c.range? := by
  simp only [range?, rename, List.getLast?_map, Option.map_map]
  rfl

theorem Chain.isIdentity_rename (c : Chain) : (c.rename ρ).isIdentity = c.isIdentity := by
  simp [isIdentity, rename]

theorem Chain.append_rename (c d : Chain) : (c.append d).rename ρ =
    (c.rename ρ).append (d.rename ρ) := by
  simp [append, rename]

namespace Structs.Renamed

theorem convertedRange (h : Renamed ρ s s') (r : Range) (t : Ty) :
    s'.convertedRange r (t.rename ρ) = s.convertedRange r t := by
  simp only [Structs.convertedRange, Range.fits_rename, Range.integer_rename, Range.literal_rename,
    Ty.isSigned_rename, h.rangeOf, h.size]

/-- The rules of the builtin conversions look at no number. -/
theorem rangeAfter (h : Renamed ρ s s') {t : Ty} {e : Edge} (he : Builtin.casts.Offers s t e)
    (r : Range) : s'.rangeAfter (e.rename ρ) r = s.rangeAfter e r := by
  unfold Structs.rangeAfter Edge.rename
  rcases Builtin.offers_rule he with hrule | hrule | hrule <;> rw [hrule]
  · rfl
  · exact h.convertedRange r e.destination
  · rfl

end Structs.Renamed

/-! ### The conversions out of a type -/

theorem Edge.rename_of_scalars {e : Edge} (hs : e.source.scalar?.isSome = true)
    (hd : e.destination.scalar?.isSome = true) : e.rename ρ = e := by
  rw [rename, Ty.rename_of_scalar hs, Ty.rename_of_scalar hd]

/-- The registered conversions have no number in them. -/
theorem Builtin.casts_rename : ∀ g ∈ casts.groups, g.source.rename ρ = g.source ∧
    g.edges.map (Edge.rename ρ) = g.edges := by
  have scalars : ∀ g ∈ casts.groups, g.source.scalar?.isSome = true ∧ ∀ e ∈ g.edges,
      e.source.scalar?.isSome = true ∧ e.destination.scalar?.isSome = true := by
    decide +kernel
  intro g hg
  obtain ⟨hsource, hedges⟩ := scalars g hg
  have fixed : ∀ e ∈ g.edges, e.rename ρ = id e := fun e he =>
    Edge.rename_of_scalars (hedges e he).1 (hedges e he).2
  exact ⟨Ty.rename_of_scalar hsource, (List.map_congr_left fixed).trans (List.map_id _)⟩

/-- Families do not look at numbers. -/
theorem CastFamily.edge?_rename {f : CastFamily} (hf : ∀ b, f = .pointerToBool b → b.rename ρ = b)
    (t : Ty) : f.edge? (t.rename ρ) = (f.edge? t).map (Edge.rename ρ) := by
  cases t with
  | pointer flags stamp p =>
    obtain ⟨_ | _, _ | _⟩ := flags
    · cases f with
      | dropMutable =>
        simp only [Ty.rename, edge?, Ty.isMutable_rename]
        split
        · simp [Edge.rename, Ty.rename]
        · rfl
      | pointerToBool b => simp [Ty.rename, edge?, Edge.rename, hf b rfl]
    all_goals cases f <;> rfl
  | _ => cases f <;> rfl

namespace Structs.Renamed

variable (h : Renamed ρ s s')

include h

/-- Nor do the groups. -/
theorem groupEdges (t : Ty) : ∀ {gs : List CastGroup}, (∀ g ∈ gs, g.source.rename ρ = g.source ∧
    g.edges.map (Edge.rename ρ) = g.edges) → (CastGroup.edgesFrom s' (t.rename ρ) gs).outcome =
      (CastGroup.edgesFrom s t gs).outcome.map (List.map (Edge.rename ρ))
  | [], _ => rfl
  | g :: gs, hg => by
    obtain ⟨hsource, hedges⟩ := hg g (.head _)
    have same := h.compareAlike t g.source
    rw [hsource] at same
    rw [CastGroup.edgesFrom, CastGroup.edgesFrom]
    refine Traced.map_bind_congr same fun found => ?_
    cases found with
    | true => simp [hedges, Except.map]
    | false => simpa using groupEdges t fun g hmem => hg g (.tail _ hmem)

/-- So the same conversions are found. -/
theorem edgesFrom (t : Ty) : (Builtin.casts.edgesFrom s' (t.rename ρ)).outcome =
    (Builtin.casts.edgesFrom s t).outcome.map (List.map (Edge.rename ρ)) := by
  refine Traced.map_bind (h.groupEdges t Builtin.casts_rename) fun registered _ => ?_
  have families : Builtin.casts.families.filterMap (·.edge? (t.rename ρ)) =
      (Builtin.casts.families.filterMap (·.edge? t)).map (Edge.rename ρ) := by
    have bool : ∀ f ∈ Builtin.casts.families, ∀ b, f = .pointerToBool b → b.rename ρ = b := by
      simp [Builtin.casts, Builtin.bool, Builtin.scalar, Ty.rename]
    rw [List.map_filterMap]
    exact List.filterMap_congr fun f hf => CastFamily.edge?_rename (bool f hf) t
  rw [families]
  simp [Except.map]

theorem outgoing (t : Ty) : (Builtin.casts.outgoing s' (t.rename ρ)).outcome =
    (Builtin.casts.outgoing s t).outcome.map (List.map (Edge.rename ρ)) := by
  refine Traced.map_bind (h.edgesFrom t) fun edges _ => ?_
  rw [Ty.isFlagged_rename]
  split
  · simp [Except.map, Edge.decay, Edge.rename]
  · simp [Except.map]

end Structs.Renamed

/-! ### The search -/

namespace Reached

/-- The nearest type is the same. -/
theorem nearestFrom_rename : ∀ (place : Nat) (rs : List Reached),
    nearestFrom place (rs.map (rename ρ)) = (nearestFrom place rs).map (Prod.map id (rename ρ))
  | _, [] => rfl
  | place, r :: rs => by
    simp only [List.map_cons, nearestFrom, nearestFrom_rename (place + 1) rs]
    show (if r.settled then _ else _) = _
    split
    · rfl
    · cases nearestFrom (place + 1) rs with
      | none => rfl
      | some best =>
        dsimp only
        rw [apply_ite (Option.map (Prod.map id (rename ρ)))]
        rfl

theorem revisit_rename (place : Nat) (r : Reached) (chain : Chain) (range : Range) (q : Reached) :
    revisit place (r.rename ρ) (chain.rename ρ) range (q.rename ρ) =
      (revisit place r chain range q).rename ρ := by
  unfold revisit
  rw [apply_ite (rename ρ), apply_ite (rename ρ), apply_ite (rename ρ)]
  rfl

theorem modify_rename {f f' : Reached → Reached}
    (hf : ∀ r : Reached, f' (r.rename ρ) = (f r).rename ρ)
    (i : Nat) (rs : List Reached) :
    (rs.map (rename ρ)).modify i f' = (rs.modify i f).map (rename ρ) := by
  refine List.ext_getElem? fun j => ?_
  simp only [List.getElem?_modify, List.getElem?_map]
  cases rs[j]? with
  | none => rfl
  | some r => by_cases h : i = j <;> simp [h, hf]

end Reached

namespace Structs.Renamed

variable (h : Renamed ρ s s')

include h

theorem placeFrom (t : Ty) : ∀ (place : Nat) (rs : List Reached),
    (Reached.placeFrom s' (t.rename ρ) place (rs.map (Reached.rename ρ))).outcome =
      (Reached.placeFrom s t place rs).outcome
  | _, [] => rfl
  | place, r :: rs => by
    rw [List.map_cons, Reached.placeFrom, Reached.placeFrom]
    refine Traced.bind_congr (h.compareAlike t r.type) fun same => ?_
    cases same with
    | true => simp
    | false => simpa using placeFrom t (place + 1) rs

/-- A conversion is taken in the same way. -/
theorem relax (rs : List Reached) (place : Nat) (r : Reached) (e : Edge) (weight : Weight)
    (range : Range) :
    (Reached.relax s' (rs.map (Reached.rename ρ)) place (r.rename ρ) (e.rename ρ) weight
      range).outcome =
      (Reached.relax s rs place r e weight range).outcome.map (List.map (Reached.rename ρ)) := by
  have chain : (⟨(r.rename ρ).chain.steps ++ [⟨e.rename ρ, range⟩], weight⟩ : Chain) =
      (⟨r.chain.steps ++ [⟨e, range⟩], weight⟩ : Chain).rename ρ := by
    simp [Chain.rename, Reached.rename, Step.rename]
  unfold Reached.relax
  dsimp only
  rw [chain]
  refine Traced.map_bind_congr (h.placeFrom e.destination 0 rs) fun found => ?_
  cases found with
  | none => simp [Except.map, Reached.rename, Edge.rename]
  | some i =>
    simp only [Traced.outcome_pure, Except.map]
    rw [Reached.modify_rename (Reached.revisit_rename place r _ range)]

/-- So are all of them. -/
theorem expand (q : CastQuery) (place : Nat) (r : Reached) : ∀ (es : List Edge) (rs : List Reached),
    (∀ e ∈ es, Builtin.casts.Offers s r.type e) →
    (CastTable.expand s' (q.rename ρ) place (r.rename ρ) (es.map (Edge.rename ρ))
        (rs.map (Reached.rename ρ))).outcome =
      (CastTable.expand s q place r es rs).outcome.map (List.map (Reached.rename ρ))
  | [], rs, _ => rfl
  | e :: es, rs, hes => by
    have rest := fun e he => hes e (.tail _ he)
    rw [List.map_cons, CastTable.expand, CastTable.expand]
    simp only [Edge.usable_rename, h.rangeAfter (hes e (.head _))]
    show (if e.usable r.range q.explicit && (r.chain.weight + e.weight).le q.limit then _
      else _ : Traced Fault (List Reached)).outcome = _
    split
    · refine Traced.map_bind_congr rfl fun range => ?_
      exact Traced.map_bind (h.relax rs place r e _ range) fun rs _ => expand q place r es rs rest
    · exact expand q place r es rs rest

/-- By induction on the rounds. -/
theorem searchFrom (q : CastQuery) : ∀ (n : Nat) (rs : List Reached),
    (Builtin.casts.searchFrom s' (q.rename ρ) n (rs.map (Reached.rename ρ))).outcome =
      (Builtin.casts.searchFrom s q n rs).outcome.map (Found.rename ρ)
  | 0, _ => rfl
  | n + 1, rs => by
    rw [CastTable.searchFrom, CastTable.searchFrom, Reached.nearest, Reached.nearest,
      Reached.nearestFrom_rename]
    cases Reached.nearestFrom 0 rs with
    | none => rfl
    | some best =>
      obtain ⟨place, r⟩ := best
      refine Traced.map_bind_congr (h.compare r.type q.destination) fun found => ?_
      cases found with
      | true => simp [Except.map, Found.rename, Reached.rename]
      | false =>
        have settle : (rs.map (Reached.rename ρ)).modify place
          (fun r => { r with settled := true }) =
            (rs.modify place fun r => { r with settled := true }).map (Reached.rename ρ) := by
          apply Reached.modify_rename
          exact fun _ => rfl
        simp only [Bool.false_eq_true, if_false]
        refine Traced.map_bind (h.outgoing r.type) fun es hes => ?_
        refine Traced.map_bind ?_ fun rs _ => searchFrom q n rs
        rw [← h.expand q place r es _ (CastTable.offers_of_outgoing hes), ← settle]
        rfl

/-- A search under other numbers finds what the search finds. -/
theorem search (t : Ty) (range : Range) (q : CastQuery) :
    (Builtin.casts.search s' (t.rename ρ) range (q.rename ρ)).outcome =
      (Builtin.casts.search s t range q).outcome.map (Found.rename ρ) :=
  h.searchFrom q _ [⟨t, .identity, range, none, false, false⟩]

end Structs.Renamed

end Gauge
