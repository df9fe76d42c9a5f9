import Gauge.Ty

/-!
# The registry of types

Scopes register the types they declare and take them back when they close.  A place in the registry
is used again, with its generation counted up, so that an old identifier does not find a later type.
Places and generations are counted with 32 bits.
-/

namespace Gauge

/-- A place in the registry, as it was when the type was registered. -/
structure TypeId where
  index : UInt32
  generation : UInt32
deriving DecidableEq

def TypeId.text (id : TypeId) : String :=
  "TypeId \x7b index: " ++ toString id.index.toNat ++ ", generation: " ++
    toString id.generation.toNat ++ " \x7d"

/-- A place: how often it was given back, and what it holds. -/
structure RegistrySlot where
  generation : UInt32
  type : Option Ty

/-- Registered types; the free places are those given back, latest first. -/
structure Registry where
  slots : List RegistrySlot
  free : List UInt32

namespace Registry

def empty : Registry := ⟨[], []⟩

/-- Registers a type in the free place given back last, or in a new one. -/
def register (r : Registry) (t : Ty) : TypeId × Registry :=
  match r.free with
  | index :: free =>
    (⟨index, (r.slots[index.toNat]?.map (·.generation)).getD 0⟩,
      ⟨r.slots.modify index.toNat fun s => { s with type := some t }, free⟩)
  | [] => (⟨.ofNat r.slots.length, 0⟩, { r with slots := r.slots ++ [⟨0, some t⟩] })

/-- The type that an identifier was given for, while it is registered. -/
def lookup (r : Registry) (id : TypeId) : Option Ty :=
  match r.slots[id.index.toNat]? with
  | some s => if s.generation = id.generation then s.type else none
  | none => none

/-- Takes a type back; false when it was taken back before. -/
def deregister (r : Registry) (id : TypeId) : Bool × Registry :=
  if (r.lookup id).isSome then
    (true,
      ⟨r.slots.modify id.index.toNat fun s => ⟨s.generation + 1, none⟩, id.index :: r.free⟩)
  else (false, r)

/-- The number of registered types. -/
def size (r : Registry) : Nat := r.slots.countP (·.type.isSome)

end Registry

end Gauge
