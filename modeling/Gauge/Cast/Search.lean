import Gauge.Cast

/-!
# The cheapest chain of conversions

`CastTable.search` walks the graph of types and conversions from a source, nearest type first, and
carries the range of the value along each path, since some conversions depend on it.  A type that
two different types reach at the same least weight is tied, and so is what lies behind it.
-/

namespace Gauge

/-- A type that the search has reached: the best chain so far, the range it leaves the value in, the
place of the type before it, and whether another chain is as good. -/
structure Reached where
  type : Ty
  chain : Chain
  range : Range
  parent : Option Nat
  tied : Bool
  settled : Bool

/-- The answer of a search. -/
inductive Found where
  | chain (chain : Chain) (ambiguous : Bool)
  | unreachable

namespace Reached

/-- The place of the lightest type that is not settled; of equals the one reached first. -/
def nearestFrom (place : Nat) : List Reached → Option (Nat × Reached)
  | [] => none
  | r :: rs =>
    let rest := nearestFrom (place + 1) rs
    if r.settled then rest
    else match rest with
      | none => some (place, r)
      | some (p, best) =>
        if best.chain.weight.lt r.chain.weight then some (p, best) else some (place, r)

def nearest (rs : List Reached) : Option (Nat × Reached) := nearestFrom 0 rs

/-- The place of a type among those reached, counted from `place`. -/
def placeFrom (s : Structs) (t : Ty) (place : Nat) : List Reached → Traced Fault (Option Nat)
  | [] => return none
  | r :: rs => do
    if ← s.compareAlike t r.type then return some place else placeFrom s t (place + 1) rs

/-- What is known of a type after it is reached again, from the type `r` at `place` by a chain that
leaves the value in `range`. -/
def revisit (place : Nat) (r : Reached) (chain : Chain) (range : Range) (q : Reached) : Reached :=
  if q.settled then q
  else if chain.weight.lt q.chain.weight then
    { q with chain := chain, range := range, parent := some place, tied := r.tied }
  else if chain.weight = q.chain.weight ∧ q.parent ≠ some place then { q with tied := true }
  else q

/-- The types reached after taking the conversion `e` from the type `r` at `place`, which leads to
the weight `weight` and the range `range`. -/
def relax (s : Structs) (rs : List Reached) (place : Nat) (r : Reached) (e : Edge)
    (weight : Weight) (range : Range) : Traced Fault (List Reached) := do
  let chain : Chain := ⟨r.chain.steps ++ [⟨e, range⟩], weight⟩
  match ← placeFrom s e.destination 0 rs with
  | none => return rs ++ [⟨e.destination, chain, range, some place, r.tied, false⟩]
  | some i => return rs.modify i (revisit place r chain range)

end Reached

/-- What is looked for, and under which conditions. -/
structure CastQuery where
  destination : Ty
  explicit : Bool
  limit : Weight

namespace CastTable

/-- Takes every usable conversion out of the type at `place` that stays within the limit. -/
def expand (s : Structs) (q : CastQuery) (place : Nat) (r : Reached) :
    List Edge → List Reached → Traced Fault (List Reached)
  | [], rs => return rs
  | e :: es, rs =>
    let weight := r.chain.weight + e.weight
    if e.usable r.range q.explicit && weight.le q.limit then do
      let range ← s.rangeAfter e r.range
      expand s q place r es (← Reached.relax s rs place r e weight range)
    else expand s q place r es rs

/-- Settles the nearest type, again and again, until it is the destination or none is left. -/
def searchFrom (t : CastTable) (s : Structs) (q : CastQuery) :
    Nat → List Reached → Traced Fault Found
  | 0, _ => return .unreachable
  | n + 1, rs =>
    match Reached.nearest rs with
    | none => return .unreachable
    | some (place, r) => do
      if ← s.compare r.type q.destination then return .chain r.chain r.tied
      let rs := rs.modify place fun r => { r with settled := true }
      let rs ← expand s q place r (← t.outgoing s r.type) rs
      t.searchFrom s q n rs

/-- A bound on the number of types a search can reach: from the source and from each registered
destination a value may be loaded, a pointer may lose `mut`, and one type is that of null checks. -/
def reachBound (t : CastTable) : Nat := 3 * (t.edges.length + 1) + t.families.length + 1

/-- The cheapest chain from `source`, for a value in `range`, within the limit. -/
def search (t : CastTable) (s : Structs) (source : Ty) (range : Range) (q : CastQuery) :
    Traced Fault Found :=
  t.searchFrom s q t.reachBound [⟨source, .identity, range, none, false, false⟩]

/-- The chain that converts `source` to the query's destination, if there is one: it must not be
ambiguous, and there must be one if it is mandatory. -/
def resolve (t : CastTable) (s : Structs) (source : Ty) (range : Range) (q : CastQuery)
    (mandatory : Bool) (position : Position) : Traced Failure (Option Chain) := do
  if ← Failure.ofTraced (s.compare source q.destination) then return some .identity
  match ← Failure.ofTraced (t.search s source range q) with
  | .chain _ true => throw (.error ⟨.ambiguousCast source.text q.destination.text, position⟩)
  | .chain c false => return some c
  | .unreachable =>
    if mandatory then throw (.error ⟨.castNotAllowed source.text q.destination.text, position⟩)
    else return none

end CastTable

end Gauge
