import Gauge.Text.CharClass

/-!
# Types

Scalars, pointers, functions and structs.  Every use of a type carries two flags: whether the
expression denotes storage, and whether that storage may be written.  A struct is named by its
number in the table of structs (`Gauge.Ty.Struct`), where its members are kept.

Types are equal when they have the same shape; the names of scalars and functions are only shown.
A `Stamp` tells apart types that are equal but were made separately.
-/

namespace Gauge

/-- What the values of a scalar type are. -/
inductive ScalarKind where
  | void
  | bool
  | signedInt
  | unsignedInt
  | char
deriving DecidableEq

namespace ScalarKind

def name : ScalarKind → String
  | .void => "Void"
  | .bool => "Bool"
  | .signedInt => "SignedInt"
  | .unsignedInt => "UnsignedInt"
  | .char => "Char"

def ofName? (s : String) : Option ScalarKind :=
  [ScalarKind.void, .bool, .signedInt, .unsignedInt, .char].find? (·.name = s)

end ScalarKind

/-- Where a type was made: `none` for the shared ones, which are told apart by what they are, and a
number for each one made on its own. -/
abbrev Stamp := Option Nat

/-- A type of plain values. -/
structure Scalar where
  name : String
  kind : ScalarKind
  /-- The number of bytes of a value. -/
  size : UInt32
  alignment : UInt32
  stamp : Stamp
deriving DecidableEq

namespace Scalar

/-- The smallest and the largest value, for integers and characters. -/
def bounds? (s : Scalar) : Option (Int × Int) :=
  match s.kind with
  | .unsignedInt | .char => some (0, Int.pow 2 (s.size.toNat * 8) - 1)
  | .signedInt => some (-Int.pow 2 (s.size.toNat * 8 - 1), Int.pow 2 (s.size.toNat * 8 - 1) - 1)
  | .void | .bool => none

/-- Equal as types, whatever they are called. -/
def same (a b : Scalar) : Bool :=
  a.kind == b.kind && a.size == b.size && a.alignment == b.alignment

end Scalar

/-- What a use of a type adds to it. -/
structure Flags where
  /-- The expression denotes a storage location. -/
  reference : Bool
  /-- The storage may be written to. -/
  mutable : Bool
deriving DecidableEq

/-- A value, not storage. -/
def Flags.none : Flags := ⟨false, false⟩

/-- A struct: its number in the table, and its name. -/
structure StructRef where
  id : Nat
  name : String
deriving DecidableEq

/-- A type with its flags. -/
inductive Ty where
  | scalar (flags : Flags) (scalar : Scalar)
  | pointer (flags : Flags) (stamp : Stamp) (pointed : Ty)
  | function (flags : Flags) (stamp : Stamp) (name : Option String) (result : Ty)
      (parameters : List Ty)
  | struct (flags : Flags) (ref : StructRef)

namespace Ty

def flags : Ty → Flags
  | .scalar f _ | .pointer f _ _ | .function f _ _ _ _ | .struct f _ => f

def withFlags (f : Flags) : Ty → Ty
  | .scalar _ s => .scalar f s
  | .pointer _ st p => .pointer f st p
  | .function _ st n r ps => .function f st n r ps
  | .struct _ r => .struct f r

/-- The pointer to a type that all its users share. -/
def pointerTo (pointed : Ty) : Ty := .pointer .none none pointed

/-- Storage of the type. -/
def asReference (t : Ty) : Ty := t.withFlags { t.flags with reference := true }

def asMutable (t : Ty) : Ty := t.withFlags { t.flags with mutable := true }

def notReference (t : Ty) : Ty := t.withFlags { t.flags with reference := false }

def notMutable (t : Ty) : Ty := t.withFlags { t.flags with mutable := false }

/-- The type of the values, without flags. -/
def bare (t : Ty) : Ty := t.withFlags .none

@[simp] theorem flags_withFlags (f : Flags) (t : Ty) : (t.withFlags f).flags = f := by
  cases t <;> rfl

@[simp] theorem withFlags_withFlags (f g : Flags) (t : Ty) :
    (t.withFlags f).withFlags g = t.withFlags g := by
  cases t <;> rfl

@[simp] theorem withFlags_flags (t : Ty) : t.withFlags t.flags = t := by
  cases t <;> rfl

@[simp] theorem bare_bare (t : Ty) : t.bare.bare = t.bare := by
  simp [bare]

def isReference (t : Ty) : Bool := t.flags.reference

def isMutable (t : Ty) : Bool := t.flags.mutable

def isFlagged (t : Ty) : Bool := t.isReference || t.isMutable

def scalar? : Ty → Option Scalar
  | .scalar _ s => some s
  | _ => none

def pointed? : Ty → Option Ty
  | .pointer _ _ p => some p
  | _ => none

def struct? : Ty → Option StructRef
  | .struct _ r => some r
  | _ => none

def hasKind (k : ScalarKind) (t : Ty) : Bool := t.scalar?.any (·.kind == k)

def isVoid (t : Ty) : Bool := t.hasKind .void

def isBool (t : Ty) : Bool := t.hasKind .bool

def isSigned (t : Ty) : Bool := t.hasKind .signedInt

/-- Signed or unsigned; characters are not integers. -/
def isInteger (t : Ty) : Bool := t.hasKind .signedInt || t.hasKind .unsignedInt

def isPointer (t : Ty) : Bool := t.pointed?.isSome

/-- The smallest and the largest value, for integers and characters. -/
def bounds? (t : Ty) : Option (Int × Int) := t.scalar?.bind Scalar.bounds?

/-- Writes the flags around the text of a type. -/
def decorate (f : Flags) (s : String) : String :=
  (if f.mutable then "mut " else "") ++ s ++ (if f.reference then "&" else "")

mutual

def text : Ty → String
  | .scalar f s => decorate f s.name
  | .pointer f _ p => decorate f ("*" ++ p.text)
  | .function f _ n r ps =>
    let name := match n with
      | none => ""
      | some n => " " ++ n
    decorate f ("def" ++ name ++ "(" ++ ", ".intercalate (texts ps) ++ ") -> " ++ r.text)
  | .struct f r => decorate f r.name

def texts : List Ty → List String
  | [] => []
  | t :: ts => t.text :: texts ts

end

/-- A name with its length in bytes before it. -/
def counted (name : String) : String := toString (width name.toList) ++ name

/-- Letters for the flags of a type. -/
def flagLetters (f : Flags) : String :=
  (if f.reference then "R" else "") ++ (if f.mutable then "M" else "")

/-- The shape of a scalar in letters. -/
def scalarLetters (s : Scalar) : String :=
  match s.kind with
  | .void => "V"
  | .bool => "B"
  | .char => "C" ++ toString s.size.toNat
  | .unsignedInt => "U" ++ toString s.size.toNat
  | .signedInt => "I" ++ toString s.size.toNat

mutual

/-- A type in letters, for the names that the linker sees. -/
def mangled : Ty → String
  | .scalar f s => flagLetters f ++ scalarLetters s
  | .pointer f _ p => flagLetters f ++ "P" ++ p.mangled
  | .function f _ _ r ps => flagLetters f ++ "F" ++ r.mangled ++ mangledAll ps ++ "E"
  | .struct f r => flagLetters f ++ "T" ++ counted r.name

def mangledAll : List Ty → String
  | [] => ""
  | t :: ts => t.mangled ++ mangledAll ts

end

mutual

/-- The very same type: made at one place, with the same flags. -/
def identical : Ty → Ty → Bool
  | .scalar f a, .scalar g b => f == g && a == b
  | .pointer f s a, .pointer g t b => f == g && s == t && identical a b
  | .function f s n r ps, .function g t m q qs =>
    f == g && s == t && n == m && identical r q && identicalAll ps qs
  | .struct f a, .struct g b => f == g && a == b
  | _, _ => false

def identicalAll : List Ty → List Ty → Bool
  | [], [] => true
  | a :: as, b :: bs => identical a b && identicalAll as bs
  | _, _ => false

end

mutual

theorem identical_iff : ∀ a b : Ty, identical a b = true ↔ a = b
  | .scalar _ _, b | .struct _ _, b => by cases b <;> simp [identical]
  | .pointer _ _ a, b => by
    cases b with
    | pointer _ _ b => simp [identical, identical_iff a b, and_assoc]
    | _ => simp [identical]
  | .function _ _ _ r ps, b => by
    cases b with
    | function _ _ _ q qs =>
      simp [identical, identical_iff r q, identicalAll_iff ps qs, and_assoc]
    | _ => simp [identical]

theorem identicalAll_iff : ∀ as bs : List Ty, identicalAll as bs = true ↔ as = bs
  | [], bs => by cases bs <;> simp [identicalAll]
  | _ :: _, [] => by simp [identicalAll]
  | a :: as, b :: bs => by simp [identicalAll, identical_iff a b, identicalAll_iff as bs]

end

instance : DecidableEq Ty := fun a b => decidable_of_iff _ (identical_iff a b)

mutual

/-- Whether two types look the same: at most their structs differ, and those have the same names. -/
def alike : Ty → Ty → Bool
  | .scalar f a, .scalar g b => f == g && a.same b
  | .pointer f _ a, .pointer g _ b => f == g && alike a b
  | .function f _ _ r ps, .function g _ _ q qs => f == g && alike r q && alikeAll ps qs
  | .struct f a, .struct g b => f == g && a.name == b.name
  | _, _ => false

def alikeAll : List Ty → List Ty → Bool
  | [], [] => true
  | a :: as, b :: bs => alike a b && alikeAll as bs
  | _, _ => false

end

end Ty

/-- How a function is called. -/
inductive Abi where
  | native
  | c
deriving DecidableEq

namespace Abi

def name : Abi → String
  | .native => "Practical"
  | .c => "C"

def ofName? : String → Option Abi
  | "Practical" => some .native
  | "C" => some .c
  | _ => none

end Abi

/-- The parameters and the result of a function. -/
structure Signature where
  name : Option String
  result : Ty
  parameters : List Ty

namespace Signature

/-- The type of the functions with a signature. -/
def type (s : Signature) (flags : Flags) (stamp : Stamp) : Ty :=
  .function flags stamp s.name s.result s.parameters

/-- The name a function is linked by: the plain name for foreign code, and otherwise one that tells
overloads apart by their parameters. -/
def symbol (s : Signature) (name : String) : Abi → String
  | .c => name
  | .native => "_P" ++ Ty.counted name ++ Ty.mangledAll s.parameters

end Signature

/-- The signature of a function type. -/
def Ty.signature? : Ty → Option Signature
  | .function _ _ n r ps => some ⟨n, r, ps⟩
  | _ => none

end Gauge
