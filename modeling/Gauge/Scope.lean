import Gauge.Cast.Search
import Gauge.Options
import Gauge.Overload
import Gauge.Registry
import Gauge.Syntax

/-!
# Scopes

A scope is a stack of frames, innermost first, over a world that all scopes of a compilation share:
structs, registered types, functions, conversions and operators.  Each frame binds names of types
and names of variables and functions; a name that a frame does not bind is looked up further out.
-/

namespace Gauge

/-- A variable: its type, what is known of its value, and the storage it is kept in. -/
structure Variable where
  name : String
  type : Ty
  range : Range
  slot : Nat

/-- What a resolved function is: its signature and how it is called. -/
structure Prototype where
  flags : Flags
  stamp : Stamp
  signature : Signature
  abi : Abi

def Prototype.type (p : Prototype) : Ty := p.signature.type p.flags p.stamp

/-- A function's name, and what it is once that is known. -/
structure FunctionEntry where
  name : String
  prototype? : Option Prototype

/-- A function that can be called. -/
structure Callee where
  id : Nat
  name : String
  prototype : Prototype

/-- The name that the function is linked by. -/
def Callee.symbol (c : Callee) : String := c.prototype.signature.symbol c.name c.prototype.abi

/-- What a name stands for: a variable, or all functions of that name in one frame. -/
inductive Binding where
  | variable (v : Variable)
  | functions (ids : List Nat)

/-- The names of one block of a program, and what is to be taken back when it closes. -/
structure Frame where
  types : List (String × Ty)
  symbols : List (String × Binding)
  registered : List TypeId
  owned : List StructRef
  returnType? : Option Ty

def Frame.empty : Frame := ⟨[], [], [], [], none⟩

/-- What all scopes of a compilation share. -/
structure World where
  structs : Structs
  registry : Registry
  functions : List FunctionEntry
  casts : CastTable
  overloads : List Overload
  limits : Limits
  /-- The number of types that were made on their own. -/
  stamps : Nat

/-- A world without types, conversions and operators. -/
def World.empty (limits : Limits) : World :=
  ⟨.empty, .empty, [], .empty, [], limits, 0⟩

/-- A stack of frames over a world. -/
structure Scope where
  world : World
  frame : Frame
  outer : List Frame

namespace Scope

/-- The outermost scope of a world. -/
def root (world : World) : Scope := ⟨world, .empty, []⟩

/-- The number of scopes around this one. -/
def depth (s : Scope) : Nat := s.outer.length

/-- A scope inside this one. -/
def push (s : Scope) : Scope := { s with frame := .empty, outer := s.frame :: s.outer }

/-- The world after a frame is closed: its types are taken back and its structs lose their members.
-/
def closeFrame (w : World) (f : Frame) : World :=
  { w with
    registry := f.registered.foldl (fun r id => (r.deregister id).2) w.registry
    structs := f.owned.foldl (fun t r => t.detach r) w.structs }

/-- The scope around this one, after this one is closed; the outermost scope stays. -/
def pop (s : Scope) : Scope :=
  match s.outer with
  | [] => s
  | f :: fs => ⟨closeFrame s.world s.frame, f, fs⟩

/-- The frames from the inside out. -/
def frames (s : Scope) : List Frame := s.frame :: s.outer

def structs (s : Scope) : Structs := s.world.structs

def withStructs (s : Scope) (t : Structs) : Scope :=
  { s with world := { s.world with structs := t } }

/-- The scope after some work that took fingerprints: they are kept. -/
def keeping (s : Scope) (taken : List StructRef) : Scope :=
  s.withStructs (s.structs.keepAll taken)

/-- Equality of types. -/
def compare (s : Scope) (a b : Ty) : Traced Fault Bool := s.structs.compare a b

/-- Every value of a type. -/
def rangeOf (s : Scope) (t : Ty) : Range := s.structs.rangeOf t

/-- A mark for a type that is made on its own. -/
def freshStamp (s : Scope) : Stamp × Scope :=
  (some s.world.stamps, { s with world := { s.world with stamps := s.world.stamps + 1 } })

/-! ### Types -/

/-- Names a type in this frame, whatever the name meant in it before. -/
def insertType (s : Scope) (name : String) (t : Ty) : Scope :=
  { s with frame := { s.frame with types := (name, t) :: s.frame.types } }

/-- Names and registers a type in this frame, where the name must be new. -/
def registerType (s : Scope) (name : String) (t : Ty) (position : Position) :
    Except Error (TypeId × Scope) :=
  if (s.frame.types.lookup name).isSome then .error ⟨.symbolRedefined name, position⟩
  else
    let (id, registry) := s.world.registry.register t
    let s := s.insertType name t
    .ok (id, { s with
      world := { s.world with registry := registry }
      frame := { s.frame with registered := s.frame.registered ++ [id] } })

/-- Names and registers a new scalar type, aligned to its size. -/
def registerScalar (s : Scope) (name : String) (kind : ScalarKind) (size : UInt32)
    (position : Position) : Except Error (Ty × Scope) := do
  let (stamp, s) := s.freshStamp
  let t : Ty := .scalar .none ⟨name, kind, size, max size 1, stamp⟩
  let (_, s) ← s.registerType name t position
  return (t, s)

/-- Declares a struct whose members are given later; it belongs to this frame. -/
def declareStruct (s : Scope) (name : String) (position : Position) :
    Except Error (StructRef × Scope) := do
  let (r, table) := s.structs.declare name
  let (_, s) ← (s.withStructs table).registerType name (.struct .none r) position
  return (r, { s with frame := { s.frame with owned := s.frame.owned ++ [r] } })

/-- Gives a struct its members. -/
def completeStruct (s : Scope) (t : Ty) (members : List (String × Ty)) : Except Fault Scope :=
  match t.struct? with
  | some r => (s.structs.complete r members).map s.withStructs
  | none => .error (.notAStruct t.text)

def lookupType (s : Scope) (name : String) : Option Ty :=
  s.frames.findSome? (·.types.lookup name)

/-- The type that an annotation means here. -/
def resolveType (s : Scope) : TypeExpr → Except Error Ty
  | .named span name =>
    match s.lookupType name with
    | some t => .ok t
    | none => .error ⟨.symbolNotFound name, span.start⟩
  | .pointer _ pointed => (s.resolveType pointed).map .pointerTo
  | .mutable _ inner => (s.resolveType inner).map .asMutable

/-! ### Variables and functions -/

def lookupSymbol (s : Scope) (name : String) : Option Binding :=
  s.frames.findSome? (·.symbols.lookup name)

def bind (s : Scope) (name : String) (b : Binding) : Scope :=
  { s with frame := { s.frame with symbols := (name, b) :: s.frame.symbols } }

/-- Adds a variable to this frame, where its name must be new. -/
def addVariable (s : Scope) (v : Variable) (position : Position) : Except Error Scope :=
  if (s.frame.symbols.lookup v.name).isSome then .error ⟨.symbolRedefined v.name, position⟩
  else .ok (s.bind v.name (.variable v))

/-- Reserves the name of a function.  Functions may share a name with each other in one frame, but
not with a variable. -/
def reserveFunction (s : Scope) (name : String) (position : Position) :
    Except Error (Nat × Scope) :=
  let id := s.world.functions.length
  let functions := s.world.functions ++ [⟨name, none⟩]
  let added : Scope := { s with world := { s.world with functions := functions } }
  match s.frame.symbols.lookup name with
  | none => .ok (id, added.bind name (.functions [id]))
  | some (.functions ids) => .ok (id, added.bind name (.functions (ids ++ [id])))
  | some (.variable _) => .error ⟨.symbolRedefined name, position⟩

/-- The function of a number, once it is resolved. -/
def callee? (s : Scope) (id : Nat) : Option Callee :=
  match s.world.functions[id]? with
  | some ⟨name, some p⟩ => some ⟨id, name, p⟩
  | _ => none

def functionName (s : Scope) (id : Nat) : String :=
  (s.world.functions[id]?.map (·.name)).getD ""

/-- A function that is about to be called. -/
def callee (s : Scope) (id : Nat) : Except Fault Callee :=
  match s.callee? id with
  | some c => .ok c
  | none => .error (.unresolved (s.functionName id))

/-- Whether one of some functions, other than `id`, takes the given parameters. -/
def anyTakes (s : Scope) (id : Nat) (parameters : List Ty) : List Nat → Traced Fault Bool
  | [] => return false
  | other :: others =>
    match s.callee? other with
    | some c => do
      if other = id then anyTakes s id parameters others
      else if ← s.structs.compareLists c.prototype.signature.parameters parameters then return true
      else anyTakes s id parameters others
    | none => anyTakes s id parameters others

/-- Whether another function of the name, in this frame, takes the same parameters. -/
def isTaken (s : Scope) (id : Nat) (name : String) (parameters : List Ty) : Traced Fault Bool :=
  match s.frame.symbols.lookup name with
  | some (.functions ids) => s.anyTakes id parameters ids
  | _ => return false

/-- Says what a reserved function is. -/
def resolveFunction (s : Scope) (id : Nat) (t : Ty) (abi : Abi) (position : Position) :
    Traced Failure Scope :=
  let name := s.functionName id
  if (s.callee? id).isSome then throw (.fault (.resolvedTwice name))
  else match t with
    | .function flags stamp n r ps => do
      if ← Failure.ofTraced (s.isTaken id name ps) then
        throw (.error ⟨.multipleDefinitions name, position⟩)
      let p : Prototype := ⟨flags, stamp, ⟨n, r, ps⟩, abi⟩
      return { s with world := { s.world with
        functions := s.world.functions.modify id fun e => { e with prototype? := some p } } }
    | _ => throw (.fault (.notAFunction name t.text))

/-- The type that the function around this scope gives back. -/
def returnType? (s : Scope) : Option Ty := s.frames.findSome? (·.returnType?)

def setReturnType (s : Scope) (t : Ty) : Scope :=
  { s with frame := { s.frame with returnType? := some t } }

/-! ### Conversions and operators -/

def registerCast (s : Scope) (e : Edge) : Traced Fault Scope := do
  let casts ← s.world.casts.register s.structs e
  return { s with world := { s.world with casts := casts } }

def registerOverload (s : Scope) (o : Overload) : Scope :=
  { s with world := { s.world with overloads := s.world.overloads ++ [o] } }

/-- The overloads of an operator, in the order they were registered. -/
def overloadsOf (s : Scope) (op : Operator) : List Overload :=
  s.world.overloads.filter (·.operator = op)

def castLimit (s : Scope) : Weight := s.world.limits.cast

def expressionLimit (s : Scope) : Weight := s.world.limits.expression

/-- The cheapest chain of conversions. -/
def search (s : Scope) (source : Ty) (range : Range) (q : CastQuery) : Traced Fault Found :=
  s.world.casts.search s.structs source range q

end Scope

end Gauge
