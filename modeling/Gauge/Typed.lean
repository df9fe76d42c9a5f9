import Gauge.Scope

/-!
# Typed trees

An expression whose names are resolved: every node knows its type, the range of its value and the
conversions that are applied to it afterwards.
-/

namespace Gauge

/-- The value of a literal. -/
inductive Constant where
  | integer (value : Nat)
  | bool (value : Bool)
  | null
deriving DecidableEq

/-- What is known of an expression: its own type and range, the conversions applied to its value,
and the source it covers. -/
structure Facts where
  type : Ty
  range : Range
  chain : Chain
  span : Span

mutual

/-- An expression with what is known of it. -/
inductive Typed where
  | mk (facts : Facts) (node : Node)

/-- The form of a typed expression. -/
inductive Node where
  | constant (value : Constant)
  | variable (slot : Nat) (name : String)
  | unary (op : UnaryOp) (operand : Typed)
  | addressOf (operand : Typed)
  | dereference (operand : Typed)
  | binary (op : BinaryOp) (left right : Typed) (operandType : Ty)
  | logical (op : LogicalOp) (left right : Typed)
  | assign (target value : Typed)
  | call (callee : Callee) (arguments : List Typed)
  | conditional (condition thenArm : Typed) (elseArm : Option Typed)
  /-- Statements, and the expression that gives the block its value. -/
  | block (statements : List TypedStmt) (result : Option Typed)
  /-- A conversion that is asked for; the operand carries it. -/
  | cast (operand : Typed)

/-- A typed statement. -/
inductive TypedStmt where
  | expr (value : Typed)
  | define (slot : Nat) (name : String) (type : Ty) (init : Option Typed)
  | ret (value : Option Typed)
  | loop (condition body : Typed)

end

def TypedStmt.isReturn : TypedStmt → Bool
  | .ret _ => true
  | _ => false

namespace Node

/-- Whether the node is a block that ends in `return`. -/
def diverges : Node → Bool
  | .block statements none => statements.getLast?.any (·.isReturn)
  | _ => false

end Node

namespace Typed

def facts : Typed → Facts
  | .mk f _ => f

def node : Typed → Node
  | .mk _ n => n

/-- A node of some type and range to which no conversion is applied. -/
def plain (node : Node) (type : Ty) (range : Range) (span : Span) : Typed :=
  .mk ⟨type, range, .identity, span⟩ node

/-- The type after the conversions. -/
def type (e : Typed) : Ty := e.facts.chain.destination?.getD e.facts.type

/-- The range after the conversions. -/
def range (e : Typed) : Range := e.facts.chain.range?.getD e.facts.range

/-- Where the expression starts. -/
def position (e : Typed) : Position := e.facts.span.start

def diverges (e : Typed) : Bool := e.node.diverges

/-- Applies more conversions to the value. -/
def attach (e : Typed) (c : Chain) : Typed :=
  .mk { e.facts with chain := e.facts.chain.append c } e.node

/-- Whether running the expression leaves a value: blocks do where they end in an expression. -/
def producesValue (e : Typed) : Bool :=
  match e.node with
  | .block _ result => result.isSome
  | _ => !e.type.isVoid

end Typed

end Gauge
