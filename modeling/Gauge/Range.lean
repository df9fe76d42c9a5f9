import Gauge.Ty.Struct

/-!
# Value ranges

A `Range` bounds the values that an expression can take when the program runs: integers between two
bounds, a set of booleans, pointers that may or may not be null, and one range for each member of a
struct.  The empty array stands for a struct of which nothing is known.
-/

namespace Gauge

/-- A set of booleans. -/
structure Bools where
  /-- Whether `false` is in the set. -/
  falses : Bool
  /-- Whether `true` is in the set. -/
  trues : Bool
deriving DecidableEq

namespace Bools

def any : Bools := ⟨true, true⟩

/-- The set of one boolean. -/
def exactly (b : Bool) : Bools := ⟨!b, b⟩

/-- Whether the set holds exactly one boolean. -/
def isLiteral (s : Bools) : Bool := s.falses != s.trues

def union (s t : Bools) : Bools := ⟨s.falses || t.falses, s.trues || t.trues⟩

/-- The negations of a set. -/
def not (s : Bools) : Bools := ⟨s.trues, s.falses⟩

/-- The results of `&&`: its right side counts only where the left may hold. -/
def and (s t : Bools) : Bools :=
  if s.trues then ⟨s.falses || t.falses, t.trues⟩ else exactly false

/-- The results of `||`: its right side counts only where the left may fail. -/
def or (s t : Bools) : Bools :=
  if s.falses then ⟨t.falses, s.trues || t.trues⟩ else exactly true

def text (s : Bools) : String :=
  match s.falses, s.trues with
  | true, true => "\x7bfalse, true\x7d"
  | true, false => "\x7bfalse\x7d"
  | false, true => "\x7btrue\x7d"
  | false, false => "\x7b\x7d"

end Bools

/-- Bounds on the values of an expression. -/
inductive Range where
  | unsigned (min max : Nat)
  | signed (min max : Int)
  | bools (values : Bools)
  /-- What a pointer points to, and whether it can be null (`false`) or not (`true`). -/
  | pointer (pointed : Range) (initialized : Bools)
  | array (elements : List Range)
  | void

namespace Range

mutual

/-- Whether the range is a single known value; of pointers only null is known. -/
def isLiteral : Range → Bool
  | .unsigned lo hi => lo == hi
  | .signed lo hi => lo == hi
  | .bools s => s.isLiteral
  | .pointer _ s => s.falses && !s.trues
  | .array rs => allLiteral rs
  | .void => false

def allLiteral : List Range → Bool
  | [] => true
  | r :: rs => r.isLiteral && allLiteral rs

end

/-- The bounds of an integer range; booleans count as zero and one. -/
def bounds? : Range → Option (Int × Int)
  | .unsigned lo hi => some (lo, hi)
  | .signed lo hi => some (lo, hi)
  | .bools s => some (if s.falses then 0 else 1, if s.trues then 1 else 0)
  | _ => none

/-- The value of a single integer or boolean. -/
def literalValue? (r : Range) : Option Int :=
  if r.isLiteral then
    match r with
    | .unsigned lo _ => some lo
    | .signed lo _ => some lo
    | .bools s => some (if s.trues then 1 else 0)
    | _ => none
  else none

def bools? : Range → Option Bools
  | .bools s => some s
  | _ => none

mutual

def text : Range → String
  | .unsigned lo hi => "[" ++ toString lo ++ ", " ++ toString hi ++ "]"
  | .signed lo hi => "[" ++ toString lo ++ ", " ++ toString hi ++ "]"
  | .bools s => s.text
  | .pointer r s => "ptr(initialized " ++ s.text ++ ", " ++ r.text ++ ")"
  | .array rs => "[" ++ ", ".intercalate (texts rs) ++ "]"
  | .void => "void"

def texts : List Range → List String
  | [] => []
  | r :: rs => r.text :: texts rs

end

mutual

/-- Equality of ranges. -/
def same : Range → Range → Bool
  | .unsigned a b, .unsigned c d => a == c && b == d
  | .signed a b, .signed c d => a == c && b == d
  | .bools s, .bools t => s == t
  | .pointer p s, .pointer q t => same p q && s == t
  | .array as, .array bs => sameAll as bs
  | .void, .void => true
  | _, _ => false

def sameAll : List Range → List Range → Bool
  | [], [] => true
  | a :: as, b :: bs => same a b && sameAll as bs
  | _, _ => false

end

mutual

theorem same_iff : ∀ a b : Range, same a b = true ↔ a = b
  | .unsigned _ _, r | .signed _ _, r | .bools _, r | .void, r => by cases r <;> simp [same]
  | .pointer p _, r => by
    cases r with
    | pointer q _ => simp [same, same_iff p q]
    | _ => simp [same]
  | .array as, r => by
    cases r with
    | array bs => simp [same, sameAll_iff as bs]
    | _ => simp [same]

theorem sameAll_iff : ∀ as bs : List Range, sameAll as bs = true ↔ as = bs
  | [], bs => by cases bs <;> simp [sameAll]
  | _ :: _, [] => by simp [sameAll]
  | a :: as, b :: bs => by simp [sameAll, same_iff a b, sameAll_iff as bs]

end

instance : DecidableEq Range := fun a b => decidable_of_iff _ (same_iff a b)

/-- Whether every value of the range is a value of the type. -/
def fits (r : Range) (t : Ty) : Bool :=
  if t.isBool then r.bools?.isSome
  else match r.bounds?, t.bounds? with
    | some (lo, hi), some (low, high) => decide (low ≤ lo) && decide (hi ≤ high)
    | _, _ => false

/-- The bounds as the type's words hold them: 64 bits, signed or not. -/
def ofBounds (t : Ty) (lo hi : Int) : Range :=
  if t.isSigned then .signed (lo.bmod 0x10000000000000000) (hi.bmod 0x10000000000000000)
  else .unsigned (lo % 0x10000000000000000).toNat (hi % 0x10000000000000000).toNat

/-- The integers of the type from `lo` to `hi`. -/
def integer (t : Ty) (lo hi : Int) : Except Fault Range :=
  match t.bounds? with
  | none => .error (.integerRangeOf t.text)
  | some (low, high) =>
    if low ≤ lo ∧ lo ≤ hi ∧ hi ≤ high then .ok (.ofBounds t lo hi)
    else .error (.rangeOutsideDomain lo hi t.text)

/-- The single value `v` of the type. -/
def literal (t : Ty) (v : Int) : Except Fault Range :=
  if t.isBool then .ok (.bools (.exactly (v != 0))) else integer t v v

mutual

/-- The union of two ranges of one kind; arrays of different lengths give the opaque one. -/
def merge : Range → Range → Except Fault Range
  | .unsigned a b, .unsigned c d => .ok (.unsigned (min a c) (max b d))
  | .signed a b, .signed c d => .ok (.signed (min a c) (max b d))
  | .bools s, .bools t => .ok (.bools (s.union t))
  | .pointer p s, .pointer q t => do
    let pointed ← merge p q
    return .pointer pointed (s.union t)
  | .array as, .array bs =>
    if as.length = bs.length then (mergeAll as bs).map .array else .ok (.array [])
  | .void, .void => .ok .void
  | a, b => .error (.cannotMerge a.text b.text)

def mergeAll : List Range → List Range → Except Fault (List Range)
  | a :: as, b :: bs => do
    let first ← merge a b
    let rest ← mergeAll as bs
    return first :: rest
  | _, _ => .ok []

end

end Range

/-! ### The widest range of a type -/

/-- Every value of a scalar type. -/
def Scalar.range (s : Scalar) : Range :=
  match s.kind with
  | .void => .void
  | .bool => .bools .any
  | .signedInt | .unsignedInt | .char =>
    let (lo, hi) := s.bounds?.getD (0, 0)
    .ofBounds (.scalar .none s) lo hi

/-- Every value of a type, where `structRange` gives those of a struct. -/
def Ty.rangeWith (structRange : StructRef → Range) : Ty → Range
  | .scalar _ s => s.range
  | .pointer _ _ p => .pointer (p.rangeWith structRange) .any
  | .function _ _ _ _ _ => .void
  | .struct _ r => structRange r

namespace Structs

/-- Every value of a struct met inside structs of the names `outer`.  A struct without members and
one that repeats a name are opaque, so at most as many structs as the table holds are entered. -/
def structRange (s : Structs) : Nat → (outer : List String) → StructRef → Range
  | 0, _, _ => .array []
  | n + 1, outer, r =>
    if outer.contains r.name then .array []
    else match s.layout? r with
      | none => .array []
      | some l =>
        .array (l.members.map fun m => m.type.rangeWith (s.structRange n (r.name :: outer)))

/-- Every value of a type. -/
def rangeOf (s : Structs) (t : Ty) : Range :=
  t.rangeWith (s.structRange (s.entries.length + 1) [])

/-- The null pointer of a type. -/
def nullRange (s : Structs) (t : Ty) : Except Fault Range :=
  match t.pointed? with
  | some p => .ok (.pointer (s.rangeOf p) (.exactly false))
  | none => .error (.nullRangeOf t.text)

end Structs

end Gauge
