import Gauge.Traced

/-!
# The table of structs

A struct is declared by its name, later given its members, and may lose them again when the scope
that declared it closes.  `Structs.complete` lays members out one after the other, each at the next
multiple of its alignment.  Sizes have 32 bits, and a struct that needs more is a fault.

Two structs are the same when they are one entry of the table, or when they have the same name and
the same *fingerprint*: the sequence of marks met on a walk through their members, in which a struct
met again inside itself is marked by its distance.  A fingerprint that was taken once is kept, even
when the struct loses its members.
-/

namespace Gauge

/-- A member of a struct and where it lies. -/
structure Member where
  name : String
  type : Ty
  offset : UInt32

/-- The members of a struct and the room it takes. -/
structure Layout where
  members : List Member
  size : UInt32
  alignment : UInt32

/-- One item of a fingerprint. -/
inductive Mark where
  | flags (f : Flags)
  | shape (tag : Nat)
  | kind (k : ScalarKind)
  | number (n : Nat)
  | text (s : String)
  | again (distance : Nat)
deriving DecidableEq

/-- What the table knows of a struct. -/
structure StructEntry where
  name : String
  layout : Option Layout
  fingerprint : Option (List Mark)

/-- The structs of a compilation, by number. -/
structure Structs where
  entries : List StructEntry

/-- The sum of two sizes. -/
def addSizes (a b : UInt32) : Except Fault UInt32 :=
  if a.toNat + b.toNat < UInt32.size then .ok (a + b) else .error .addOverflow

/-- The product of two sizes. -/
def multiplySizes (a b : UInt32) : Except Fault UInt32 :=
  if a.toNat * b.toNat < UInt32.size then .ok (a * b) else .error .multiplyOverflow

/-- The quotient of two sizes, rounded up. -/
def divideUp (a b : UInt32) : UInt32 := if a % b = 0 then a / b else a / b + 1

/-- The least multiple of `alignment` that is not below `offset`. -/
def alignUp (offset alignment : UInt32) : Except Fault UInt32 :=
  multiplySizes (divideUp offset alignment) alignment

/-- The bytes of a pointer. -/
def pointerSize : UInt32 := 8

namespace Structs

/-- A table without structs. -/
def empty : Structs := ⟨[]⟩

/-- Adds a struct that has no members yet. -/
def declare (s : Structs) (name : String) : StructRef × Structs :=
  (⟨s.entries.length, name⟩, ⟨s.entries ++ [⟨name, none, none⟩]⟩)

def entry? (s : Structs) (r : StructRef) : Option StructEntry := s.entries[r.id]?

def layout? (s : Structs) (r : StructRef) : Option Layout := (s.entry? r).bind (·.layout)

/-- Whether the struct has its members. -/
def isReady (s : Structs) (r : StructRef) : Bool := (s.layout? r).isSome

def layout (s : Structs) (r : StructRef) : Except Fault Layout :=
  match s.layout? r with
  | some l => .ok l
  | none => .error (.structPending r.name)

/-- Changes the entry of a struct. -/
def update (s : Structs) (r : StructRef) (f : StructEntry → StructEntry) : Structs :=
  ⟨s.entries.modify r.id f⟩

/-- The bytes of a value. -/
def size (s : Structs) : Ty → Except Fault UInt32
  | .scalar _ t => .ok t.size
  | .pointer _ _ _ => .ok pointerSize
  | .function _ _ _ _ _ => .ok 0
  | .struct _ r => (s.layout r).map (·.size)

/-- The alignment of a value. -/
def alignment (s : Structs) : Ty → Except Fault UInt32
  | .scalar _ t => .ok t.alignment
  | .pointer _ _ _ => .ok pointerSize
  | .function _ _ _ _ _ => .ok 1
  | .struct _ r => (s.layout r).map (·.alignment)

/-- Places members from `offset` on in a struct that is aligned to `alignment` or more.  Gives them
with the end of the last and the largest alignment. -/
def place (s : Structs) (offset alignment : UInt32) :
    List (String × Ty) → Except Fault (List Member × UInt32 × UInt32)
  | [] => .ok ([], offset, alignment)
  | (name, type) :: ms => do
    let own := max (← s.alignment type) 1
    let start ← alignUp offset own
    let stop ← addSizes start (← s.size type)
    let (placed, stop, alignment) ← s.place stop (max alignment own) ms
    return (⟨name, type, start⟩ :: placed, stop, alignment)

/-- The layout of a struct with the given members. -/
def lay (s : Structs) (members : List (String × Ty)) : Except Fault Layout := do
  let (placed, stop, alignment) ← s.place 0 1 members
  return ⟨placed, ← alignUp stop alignment, alignment⟩

/-- Gives a struct its members. -/
def complete (s : Structs) (r : StructRef) (members : List (String × Ty)) :
    Except Fault Structs := do
  if s.isReady r then throw (.structCompletedTwice r.name)
  let l ← s.lay members
  return s.update r fun e => { e with layout := some l }

/-- Takes the members from a struct. -/
def detach (s : Structs) (r : StructRef) : Structs := s.update r fun e => { e with layout := none }

end Structs

/-! ### Fingerprints -/

mutual

/-- The marks of a type, where `structMarks` gives those of a struct. -/
def Ty.marks (structMarks : StructRef → Except Fault (List Mark)) : Ty → Except Fault (List Mark)
  | .scalar f s => .ok [.flags f, .shape 0, .kind s.kind, .number s.size.toNat,
      .number s.alignment.toNat]
  | .function f _ _ r ps => do
    let result ← Ty.marks structMarks r
    let parameters ← Ty.marksAll structMarks ps
    return .flags f :: .shape 1 :: (result ++ parameters)
  | .pointer f _ p => do
    let pointed ← Ty.marks structMarks p
    return .flags f :: .shape 2 :: pointed
  | .struct f r => do
    let body ← structMarks r
    return .flags f :: .shape 3 :: body

def Ty.marksAll (structMarks : StructRef → Except Fault (List Mark)) :
    List Ty → Except Fault (List Mark)
  | [] => .ok []
  | t :: ts => do
    let first ← Ty.marks structMarks t
    let rest ← Ty.marksAll structMarks ts
    return first ++ rest

end

namespace Structs

/-- The marks of a struct met inside the structs `outer`, innermost first.  A struct of `outer` met
again is marked by its distance, so at most as many structs as the table holds are entered. -/
def structMarks (s : Structs) : Nat → (outer : List Nat) → StructRef → Except Fault (List Mark)
  | 0, _, _ => .ok []
  | n + 1, outer, r =>
    match outer.findIdx? (· = r.id) with
    | some i => .ok [.again (i + 1)]
    | none => do
      let l ← s.layout r
      let members ← l.members.mapM fun m => do
        let inner ← m.type.marks (s.structMarks n (r.id :: outer))
        return .text m.name :: inner
      return .text r.name :: .number l.members.length :: members.flatten

/-- The fingerprint of a struct: the one kept, or the one its members give. -/
def fingerprint (s : Structs) (r : StructRef) : Except Fault (List Mark) :=
  match (s.entry? r).bind (·.fingerprint) with
  | some marks => .ok marks
  | none => s.structMarks (s.entries.length + 1) [] r

/-- Takes the fingerprint of a struct. -/
def takeFingerprint (s : Structs) (r : StructRef) : Traced Fault (List Mark) :=
  match s.fingerprint r with
  | .ok marks => ⟨[r], .ok marks⟩
  | .error fault => ⟨[], .error fault⟩

/-- Whether two structs are the same. -/
def compareStructs (s : Structs) (a b : StructRef) : Traced Fault Bool :=
  if a.id = b.id then return true
  else if a.name = b.name then do
    let x ← s.takeFingerprint a
    let y ← s.takeFingerprint b
    return x = y
  else return false

mutual

/-- Whether two types are equal.  Comparing different structs of one name needs the members of
both, unless their fingerprints were taken before. -/
def compare (s : Structs) : Ty → Ty → Traced Fault Bool
  | .scalar f a, .scalar g b => return f == g && a.same b
  | .pointer f _ a, .pointer g _ b => if f = g then s.compare a b else return false
  | .function f _ _ r ps, .function g _ _ q qs =>
    if f = g then do
      if !(← s.compare r q) then return false
      if ps.length = qs.length then s.compareAll ps qs else return false
    else return false
  | .struct f a, .struct g b => if f = g then s.compareStructs a b else return false
  | _, _ => return false

/-- Whether the types of two lists of one length are equal, up to the first two that are not. -/
def compareAll (s : Structs) : List Ty → List Ty → Traced Fault Bool
  | [], [] => return true
  | a :: as, b :: bs => do
    if ← s.compare a b then s.compareAll as bs else return false
  | _, _ => return false

end

/-- Whether two lists of types are equal. -/
def compareLists (s : Structs) (as bs : List Ty) : Traced Fault Bool :=
  if as.length = bs.length then s.compareAll as bs else return false

/-- Whether two types are equal, where the members of structs are only needed if the types look the
same. -/
def compareAlike (s : Structs) (a b : Ty) : Traced Fault Bool :=
  if a.alike b then s.compare a b else return false

theorem compareStructs_self (s : Structs) (r : StructRef) :
    s.compareStructs r r = pure true := by
  simp [compareStructs]

/-- Keeps the fingerprint of a struct, if it has one. -/
def keep (s : Structs) (r : StructRef) : Structs :=
  match s.fingerprint r with
  | .ok marks => s.update r fun e => { e with fingerprint := some marks }
  | .error _ => s

/-- Keeps the fingerprints that some work has taken. -/
def keepAll (s : Structs) (taken : List StructRef) : Structs := taken.foldl keep s

end Structs

end Gauge
