import Gauge.Scope

/-!
# What every program starts with

The builtin scalar types, the conversions between them and the operators on them.  `Scope.standard`
is the outermost scope of every compilation.
-/

namespace Gauge

namespace Builtin

/-- A scalar aligned to its size, which all programs share. -/
def scalar (name : String) (kind : ScalarKind) (size : UInt32) : Ty :=
  .scalar .none ⟨name, kind, size, max size 1, none⟩

def void : Ty := scalar "Void" .void 0
def bool : Ty := scalar "Bool" .bool 1
def char8 : Ty := scalar "Char8" .char 1
def u8 : Ty := scalar "U8" .unsignedInt 1
def u16 : Ty := scalar "U16" .unsignedInt 2
def u32 : Ty := scalar "U32" .unsignedInt 4
def u64 : Ty := scalar "U64" .unsignedInt 8
def s8 : Ty := scalar "S8" .signedInt 1
def s16 : Ty := scalar "S16" .signedInt 2
def s32 : Ty := scalar "S32" .signedInt 4
def s64 : Ty := scalar "S64" .signedInt 8

def unsigned : List Ty := [u8, u16, u32, u64]

def signed : List Ty := [s8, s16, s32, s64]

def integers : List Ty := unsigned ++ signed

def all : List Ty := [void, bool, char8] ++ integers

/-- The narrowest unsigned type that holds a number. -/
def smallestUnsigned (n : Nat) : Ty :=
  if n < 0x100 then u8 else if n < 0x10000 then u16 else if n < 0x100000000 then u32 else u64

/-! ### Conversions -/

/-- The number of bytes of a scalar. -/
def bytes (t : Ty) : Nat := (t.scalar?.map (·.size.toNat)).getD 0

/-- How many times a size doubles from `small` to `large`. -/
def doublings (large small : Nat) : Nat := (max (large / max small 1) 1).log2

/-- The price and the policy of converting between two integer types. -/
def integerCost (source destination : Ty) : CastPolicy × Nat :=
  let m := bytes source
  let n := bytes destination
  let sameSign := source.isSigned == destination.isSigned
  if m < n ∧ sameSign then (.implicit, doublings n m)
  else if m < n ∧ !source.isSigned then (.implicit, doublings n m + 1)
  else (.implicitInRange, 4 + doublings (max m n) (min m n) + if sameSign then 0 else 1)

/-- What converting between two integer types does to the value. -/
def integerAction (source destination : Ty) : CastAction :=
  let m := bytes source
  let n := bytes destination
  if n = m then .changeSign
  else if m < n then if source.isSigned then .expandSigned else .expandUnsigned
  else .truncate

/-- The conversion between two integer types: widening is free to happen, and so is any other where
the range fits. -/
def integerEdge (source destination : Ty) : Edge :=
  let (policy, cost) := integerCost source destination
  ⟨source, destination, .step (.ofNat cost), policy, integerAction source destination, .convert⟩

/-- A conversion that has to be asked for. -/
def explicitEdge (source destination : Ty) (action : CastAction) : Edge :=
  ⟨source, destination,
    .step (.ofNat (1 + doublings (max (bytes destination) 1) (max (bytes source) 1))),
    .explicitOnly, action, .convert⟩

/-- An integer type to every other. -/
def integerEdges (source : Ty) : List Edge :=
  (integers.filter fun t => source.text != t.text).map (integerEdge source)

/-- Booleans to integers. -/
def boolEdges : List Edge :=
  integers.map fun t =>
    explicitEdge bool t (if bytes bool < bytes t then .expandUnsigned else .reinterpret)

/-- Bytes to characters. -/
def charEdges (source : Ty) : List Edge :=
  if source.text = u8.text then [explicitEdge u8 char8 .reinterpret] else []

def castGroups : List CastGroup :=
  integers.map (fun t => ⟨t, integerEdges t ++ charEdges t⟩) ++
  [⟨bool, boolEdges⟩, ⟨char8, [explicitEdge char8 u8 .reinterpret]⟩]

def casts : CastTable := ⟨castGroups, [.dropMutable, .pointerToBool bool]⟩

/-! ### Operators -/

def arithmetic : List BinaryOp := [.add, .subtract, .multiply, .divide, .modulo]

def equality : List BinaryOp := [.equals, .notEquals]

def ordering : List BinaryOp := [.less, .lessEquals, .greater, .greaterEquals]

/-- A binary operator on two values of one type. -/
def binary (operand result : Ty) (op : BinaryOp) : Overload :=
  ⟨.binary op, [operand, operand], result, .binary op⟩

/-- The operators on an integer type. -/
def integerOverloads (t : Ty) : List Overload :=
  arithmetic.map (binary t t) ++ (equality ++ ordering).map (binary t bool)

def overloads : List Overload :=
  integers.flatMap integerOverloads ++
  signed.map (fun t => ⟨.unary .negate, [t], t, .negate⟩) ++
  (equality ++ ordering).map (binary char8 bool) ++
  equality.map (binary bool bool) ++
  [⟨.unary .not, [bool], bool, .not⟩]

end Builtin

namespace Scope

/-- A scope without names, conversions and operators. -/
def bare (limits : Limits) : Scope := root (.empty limits)

/-- The outermost scope of a compilation. -/
def standard (limits : Limits) : Scope :=
  let world := { World.empty limits with casts := Builtin.casts, overloads := Builtin.overloads }
  Builtin.all.foldl (fun s t => s.insertType t.text t) (root world)

end Scope

end Gauge
