import Gauge.Module

/-!
# Code

The flat form of a function: a sequence of events that name values and labels.  Temporaries and
labels are numbered as they are made; storage keeps the number that checking gave it.
-/

namespace Gauge

/-- Where a value is: in the storage of a variable, or the result of an event. -/
inductive ValueId where
  | slot (n : Nat)
  | temp (n : Nat)
deriving DecidableEq

/-- A place that can be jumped to. -/
structure Label where
  number : Nat
deriving DecidableEq

/-- The conversions between integers. -/
inductive IntegerConversion where
  | expandSigned
  | expandUnsigned
  | truncate
  | changeSign
deriving DecidableEq

/-- One step of a function. -/
inductive Event where
  | literal (id : ValueId) (value : Nat) (type : Ty)
  | null (id : ValueId) (type : Ty)
  | allocate (id : ValueId) (type : Ty) (name : String)
  | store (target value : ValueId)
  | load (id : ValueId) (type : Ty) (address : ValueId)
  | convert (how : IntegerConversion) (id source : ValueId) (sourceType type : Ty)
  | nonNull (id source : ValueId)
  | call (id : ValueId) (callee : Callee) (arguments : List ValueId)
  | binary (id : ValueId) (op : BinaryOp) (left right : ValueId) (operandType type : Ty)
  | unary (id : ValueId) (op : UnaryOp) (operand : ValueId) (type : Ty)
  /-- Goes on with the next event if the condition holds, and at `otherwise` if not.  The value is
  the one given by the arm that is run; both arms go on at `after`. -/
  | branch (id : ValueId) (type : Ty) (condition : ValueId) (otherwise after : Label)
  /-- Gives a branch its value. -/
  | branchResult (id value : ValueId)
  | label (here : Label)
  | jump (target : Label)
  | ret (value : Option ValueId)

/-- How many temporaries and labels were made. -/
structure Supply where
  temps : Nat
  labels : Nat

/-- What a step of code generation gives. -/
structure Emitted (α : Type) where
  value : α
  events : List Event
  supply : Supply

/-- A step of code generation. -/
def Emit (α : Type) := Supply → Emitted α

namespace Emit

def pure {α : Type} (a : α) : Emit α := fun s => ⟨a, [], s⟩

def bind {α β : Type} (x : Emit α) (f : α → Emit β) : Emit β := fun s =>
  let first := x s
  let second := f first.value first.supply
  ⟨second.value, first.events ++ second.events, second.supply⟩

instance : Monad Emit where
  pure := Emit.pure
  bind := Emit.bind

theorem run_pure {α : Type} (a : α) (s : Supply) : (Pure.pure a : Emit α) s = ⟨a, [], s⟩ := rfl

theorem run_bind {α β : Type} (x : Emit α) (f : α → Emit β) (s : Supply) :
    (x >>= f) s =
      ⟨(f (x s).value (x s).supply).value, (x s).events ++ (f (x s).value (x s).supply).events,
        (f (x s).value (x s).supply).supply⟩ := rfl

instance : LawfulMonad Emit :=
  LawfulMonad.mk' Emit
    (fun x => by funext s; simp [Functor.map, bind, pure])
    (fun a f => by funext s; simp [Bind.bind, Pure.pure, bind, pure])
    (fun x f g => by funext s; simp [Bind.bind, bind])

/-- Appends an event. -/
def event (e : Event) : Emit Unit := fun s => ⟨(), [e], s⟩

def newTemp : Emit ValueId := fun s => ⟨.temp s.temps, [], { s with temps := s.temps + 1 }⟩

def newLabel : Emit Label := fun s => ⟨⟨s.labels⟩, [], { s with labels := s.labels + 1 }⟩

/-- The events of a whole function. -/
def events {α : Type} (x : Emit α) : List Event := (x ⟨0, 0⟩).events

end Emit

/-! ### Conversions -/

/-- The event that a conversion is, if it is one; `reinterpret` leaves the value where it is. -/
def CastAction.event? (sourceType type : Ty) (id source : ValueId) : CastAction → Option Event
  | .decay => some (.load id type source)
  | .expandSigned => some (.convert .expandSigned id source sourceType type)
  | .expandUnsigned => some (.convert .expandUnsigned id source sourceType type)
  | .truncate => some (.convert .truncate id source sourceType type)
  | .changeSign => some (.convert .changeSign id source sourceType type)
  | .pointerToBool => some (.nonNull id source)
  | .reinterpret => none

/-- Applies conversions to a value. -/
def Step.emitAll (type : Ty) (value : ValueId) : List Step → Emit ValueId
  | [] => return value
  | s :: ss => do
    let next := s.edge.destination
    let id ← Emit.newTemp
    match s.edge.action.event? type next id value with
    | some e => do
      Emit.event e
      emitAll next id ss
    | none => emitAll next value ss

/-! ### Trees -/

/-- A constant of some type. -/
def Constant.emit (type : Ty) (c : Constant) : Emit ValueId := do
  let id ← Emit.newTemp
  match c with
  | .integer n => Emit.event (.literal id n type)
  | .bool b => Emit.event (.literal id b.toNat type)
  | .null => Emit.event (.null id type)
  return id

/-- Gives a branch a boolean that is known without running anything. -/
def shortCircuit (branch : ValueId) (value : Bool) (type : Ty) : Emit Unit := do
  let id ← Constant.emit type (.bool value)
  Emit.event (.branchResult branch id)

mutual

/-- Runs an expression and its conversions; gives the place of its value. -/
def Typed.emit : Typed → Emit ValueId
  | .mk facts node => do
    let value ← node.emit facts.type
    Step.emitAll facts.type value facts.chain.steps

/-- Runs an expression of the given type.  References are the storage itself, so taking an address
and following one need no code. -/
def Node.emit (type : Ty) : Node → Emit ValueId
  | .constant c => c.emit type
  | .variable slot _ => return .slot slot
  | .addressOf operand => operand.emit
  | .dereference operand => operand.emit
  | .cast operand => operand.emit
  | .unary op operand => do
    let operand ← operand.emit
    let id ← Emit.newTemp
    Emit.event (.unary id op operand type)
    return id
  | .binary op left right operandType => do
    let left ← left.emit
    let right ← right.emit
    let id ← Emit.newTemp
    Emit.event (.binary id op left right operandType type)
    return id
  | .logical .and left right => do
    let condition ← left.emit
    let id ← Emit.newTemp
    let otherwise ← Emit.newLabel
    let after ← Emit.newLabel
    Emit.event (.branch id type condition otherwise after)
    let value ← right.emit
    Emit.event (.branchResult id value)
    Emit.event (.jump after)
    Emit.event (.label otherwise)
    shortCircuit id false type
    Emit.event (.jump after)
    Emit.event (.label after)
    return id
  | .logical .or left right => do
    let condition ← left.emit
    let id ← Emit.newTemp
    let otherwise ← Emit.newLabel
    let after ← Emit.newLabel
    Emit.event (.branch id type condition otherwise after)
    shortCircuit id true type
    Emit.event (.jump after)
    Emit.event (.label otherwise)
    let value ← right.emit
    Emit.event (.branchResult id value)
    Emit.event (.jump after)
    Emit.event (.label after)
    return id
  | .assign target value => do
    let target ← target.emit
    let value ← value.emit
    Emit.event (.store target value)
    return target
  | .call callee arguments => do
    let arguments ← Typed.emitAll arguments
    let id ← Emit.newTemp
    Emit.event (.call id callee arguments)
    return id
  | .conditional condition thenArm elseArm => do
    let condition ← condition.emit
    let id ← Emit.newTemp
    let otherwise ← Emit.newLabel
    let after ← Emit.newLabel
    Emit.event (.branch id type condition otherwise after)
    let value ← thenArm.emit
    if !type.isVoid && thenArm.producesValue then Emit.event (.branchResult id value)
    Emit.event (.jump after)
    Emit.event (.label otherwise)
    match elseArm with
    | some elseArm =>
      let value ← elseArm.emit
      if !type.isVoid && elseArm.producesValue then Emit.event (.branchResult id value)
    | none => pure ()
    Emit.event (.jump after)
    Emit.event (.label after)
    return id
  | .block statements (some result) => do
    TypedStmt.emitAll statements
    result.emit
  | .block statements none => do
    TypedStmt.emitAll statements
    Emit.newTemp

/-- Runs the arguments of a call. -/
def Typed.emitAll : List Typed → Emit (List ValueId)
  | [] => return []
  | e :: es => do
    let first ← e.emit
    let rest ← Typed.emitAll es
    return first :: rest

/-- Runs a statement. -/
def TypedStmt.emit : TypedStmt → Emit Unit
  | .expr value => do
    let _ ← value.emit
  | .define slot name type none => Emit.event (.allocate (.slot slot) type name)
  | .define slot name type (some init) => do
    Emit.event (.allocate (.slot slot) type name)
    let value ← init.emit
    Emit.event (.store (.slot slot) value)
  | .ret none => Emit.event (.ret none)
  | .ret (some value) => do
    let id ← value.emit
    Emit.event (.ret (if value.type.isVoid then none else some id))
  | .loop condition body => do
    let top ← Emit.newLabel
    let exit ← Emit.newLabel
    Emit.event (.label top)
    let condition ← condition.emit
    let id ← Emit.newTemp
    Emit.event (.branch id body.type condition exit exit)
    let _ ← body.emit
    Emit.event (.jump top)
    Emit.event (.label exit)

/-- Runs statements one after the other. -/
def TypedStmt.emitAll : List TypedStmt → Emit Unit
  | [] => return ()
  | s :: ss => do
    s.emit
    TypedStmt.emitAll ss

end

/-- Runs the body of a function and returns what it gives. -/
def Function.emit (f : Function) : Emit Unit := do
  let value ← f.body.emit
  let givesValue := match f.body.node with
    | .block _ result => result.isSome
    | _ => true
  if givesValue && !f.result.isVoid then Emit.event (.ret (some value))
  else if !f.body.diverges then Emit.event (.ret none)

end Gauge
