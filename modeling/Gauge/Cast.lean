import Gauge.Range
import Gauge.Weight

/-!
# Conversions

An `Edge` is one conversion from a type to another, with its weight, the rule for when it may be
taken and what it does to ranges.  A `Chain` is a sequence of conversions.  Registered edges are
kept in groups, one for each source; a type finds the group whose source it is equal to.  Besides
them there are families of edges, one edge for each type that fits.
-/

namespace Gauge

/-- When a conversion may be taken. -/
inductive CastPolicy where
  | implicit
  /-- Without being asked for only where the range fits the destination. -/
  | implicitInRange
  | explicitOnly
deriving DecidableEq

namespace CastPolicy

def name : CastPolicy → String
  | .implicit => "Implicit"
  | .implicitInRange => "ImplicitInRange"
  | .explicitOnly => "ExplicitOnly"

def ofName? (s : String) : Option CastPolicy :=
  [CastPolicy.implicit, .implicitInRange, .explicitOnly].find? (·.name = s)

end CastPolicy

/-- What a conversion does to the value. -/
inductive CastAction where
  /-- Loads the value from its storage. -/
  | decay
  | expandSigned
  | expandUnsigned
  | truncate
  | changeSign
  | pointerToBool
  /-- Leaves the value as it is. -/
  | reinterpret
deriving DecidableEq

namespace CastAction

def name : CastAction → String
  | .decay => "Decay"
  | .expandSigned => "ExpandSigned"
  | .expandUnsigned => "ExpandUnsigned"
  | .truncate => "Truncate"
  | .changeSign => "ChangeSign"
  | .pointerToBool => "PointerToBool"
  | .reinterpret => "Reinterpret"

def ofName? (s : String) : Option CastAction :=
  [CastAction.decay, .expandSigned, .expandUnsigned, .truncate, .changeSign, .pointerToBool,
   .reinterpret].find? (·.name = s)

end CastAction

/-- The range of a converted integer: the same bounds where they fit, a single value modulo the size
of the destination, and otherwise every value of the destination. -/
def Structs.convertedRange (s : Structs) (range : Range) (destination : Ty) : Except Fault Range :=
  match range.bounds? with
  | none => .ok (s.rangeOf destination)
  | some (lo, hi) =>
    if range.fits destination then Range.integer destination lo hi
    else if lo = hi then do
      let modulus := Int.pow 2 ((← s.size destination).toNat * 8)
      let value := lo % modulus
      if destination.isSigned ∧ modulus / 2 ≤ value then
        Range.literal destination (value - modulus)
      else Range.literal destination value
    else .ok (s.rangeOf destination)

/-- What a conversion does to a range, given the destination. -/
abbrev RangeRule := Structs → Range → Ty → Except Fault Range

namespace RangeRule

/-- The value stays what it is. -/
def preserve : RangeRule := fun _ range _ => .ok range

/-- The integers of the range, as the destination holds them. -/
def convert : RangeRule := Structs.convertedRange

/-- Whether a pointer is not null. -/
def nonNull : RangeRule := fun _ range _ =>
  match range with
  | .pointer _ initialized => .ok (.bools initialized)
  | _ => .ok (.bools .any)

end RangeRule

/-- One conversion between two types. -/
structure Edge where
  source : Ty
  destination : Ty
  weight : Weight
  policy : CastPolicy
  action : CastAction
  rule : RangeRule

namespace Edge

/-- Loading a value from its storage. -/
def decay (source : Ty) : Edge :=
  ⟨source, source.bare, .step 1, .implicit, .decay, .preserve⟩

/-- Whether the conversion may be taken for a value in `range`. -/
def usable (e : Edge) (range : Range) (explicit : Bool) : Bool :=
  match e.policy with
  | .implicit => true
  | .implicitInRange => explicit || range.fits e.destination
  | .explicitOnly => explicit

end Edge

/-- The range of a value after the conversion. -/
def Structs.rangeAfter (s : Structs) (e : Edge) (range : Range) : Except Fault Range :=
  e.rule s range e.destination

/-- A conversion that was taken, and the range of the value after it. -/
structure Step where
  edge : Edge
  range : Range

/-- Conversions taken one after the other. -/
structure Chain where
  steps : List Step
  weight : Weight

namespace Chain

/-- No conversion at all. -/
def identity : Chain := ⟨[], .zero⟩

def isIdentity (c : Chain) : Bool := c.steps.isEmpty

def destination? (c : Chain) : Option Ty := c.steps.getLast?.map (·.edge.destination)

def range? (c : Chain) : Option Range := c.steps.getLast?.map (·.range)

/-- One chain after another. -/
def append (c d : Chain) : Chain := ⟨c.steps ++ d.steps, c.weight + d.weight⟩

end Chain

/-- Conversions that exist for every type of some form. -/
inductive CastFamily where
  /-- `*mut T` is taken for `*T`. -/
  | dropMutable
  /-- A pointer is asked whether it is not null; the answer has the given type. -/
  | pointerToBool (bool : Ty)

/-- The conversion of a family that starts at a type. -/
def CastFamily.edge? (source : Ty) : CastFamily → Option Edge
  | .dropMutable =>
    match source with
    | .pointer ⟨false, false⟩ _ pointed =>
      if pointed.isMutable then
        some ⟨source, .pointerTo pointed.notMutable, .step 1, .implicit, .reinterpret, .preserve⟩
      else none
    | _ => none
  | .pointerToBool bool =>
    match source with
    | .pointer ⟨false, false⟩ _ _ =>
      some ⟨source, bool, .step 1, .explicitOnly, .pointerToBool, .nonNull⟩
    | _ => none

/-- The registered conversions that start at one type. -/
structure CastGroup where
  source : Ty
  edges : List Edge

/-- The conversions of a compilation. -/
structure CastTable where
  groups : List CastGroup
  families : List CastFamily

namespace CastGroup

/-- Adds a conversion to the group of its source, which may be a new one. -/
def insert (s : Structs) (e : Edge) : List CastGroup → Traced Fault (List CastGroup)
  | [] => return [⟨e.source, [e]⟩]
  | g :: gs => do
    if ← s.compareAlike g.source e.source then return { g with edges := g.edges ++ [e] } :: gs
    else return g :: (← insert s e gs)

/-- The conversions of the group of a type. -/
def edgesFrom (s : Structs) (source : Ty) : List CastGroup → Traced Fault (List Edge)
  | [] => return []
  | g :: gs => do
    if ← s.compareAlike source g.source then return g.edges else edgesFrom s source gs

end CastGroup

/-- The first conversion to a type. -/
def Edge.findTo (s : Structs) (destination : Ty) (implicitOnly : Bool) :
    List Edge → Traced Fault (Option Edge)
  | [] => return none
  | e :: es => do
    let equal ← s.compare e.destination destination
    if equal && (!implicitOnly || e.policy != .explicitOnly) then return some e
    else findTo s destination implicitOnly es

namespace CastTable

def empty : CastTable := ⟨[], []⟩

/-- All registered conversions. -/
def edges (t : CastTable) : List Edge := t.groups.flatMap (·.edges)

def register (t : CastTable) (s : Structs) (e : Edge) : Traced Fault CastTable := do
  return { t with groups := ← CastGroup.insert s e t.groups }

/-- The conversions that start at a type, other than loading it. -/
def edgesFrom (t : CastTable) (s : Structs) (source : Ty) : Traced Fault (List Edge) := do
  let registered ← CastGroup.edgesFrom s source t.groups
  return registered ++ t.families.filterMap (·.edge? source)

/-- Every conversion that starts at a type. -/
def outgoing (t : CastTable) (s : Structs) (source : Ty) : Traced Fault (List Edge) := do
  return (← t.edgesFrom s source) ++ if source.isFlagged then [.decay source] else []

/-- The first single conversion between two types. -/
def find? (t : CastTable) (s : Structs) (source destination : Ty) (implicitOnly : Bool) :
    Traced Fault (Option Edge) := do
  Edge.findTo s destination implicitOnly (← t.outgoing s source)

end CastTable

end Gauge
