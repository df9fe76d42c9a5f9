import Gauge.Range.Transfer

/-!
# Operators

The operators of the language and their overloads: which types an operator takes, what it gives and
how ranges go through it.
-/

namespace Gauge

inductive UnaryOp where
  | negate
  | not
deriving DecidableEq

def UnaryOp.symbol : UnaryOp → String
  | .negate => "-"
  | .not => "!"

inductive Operator where
  | binary (op : BinaryOp)
  | unary (op : UnaryOp)
deriving DecidableEq

/-- An operator at some types. -/
structure Overload where
  operator : Operator
  parameters : List Ty
  result : Ty
  transfer : Transfer

/-- The parameter at a place. -/
def Overload.parameter (o : Overload) (i : Nat) : Except Fault Ty :=
  match o.parameters[i]? with
  | some t => .ok t
  | none => .error (.missingOperand o.parameters.length i)

end Gauge
