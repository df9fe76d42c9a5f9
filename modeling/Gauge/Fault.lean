import Gauge.Error

/-!
# Faults

A `Fault` is a call that breaks a rule of the library itself, such as asking for the layout of a
struct that has none yet, or a size that 32 bits cannot hold.  A `Failure` is whatever ends a step
early: an error of the program or a fault.
-/

namespace Gauge

/-- A broken rule of the library. -/
inductive Fault where
  | structPending (name : String)
  | structCompletedTwice (name : String)
  | notAStruct (type : String)
  | integerRangeOf (type : String)
  | rangeOutsideDomain (min max : Int) (type : String)
  | nullRangeOf (type : String)
  | cannotMerge (left right : String)
  | operandNotInteger (range : String)
  | resultNotInteger (type : String)
  | zeroDivisor
  | missingOperand (count index : Nat)
  | resolvedTwice (function : String)
  | notAFunction (function type : String)
  | unresolved (function : String)
  | untypedVariable (name : String)
  | registeredAs (token form : String)
  | addOverflow
  | multiplyOverflow
deriving DecidableEq

def Fault.message : Fault → String
  | .structPending n => "layout of struct " ++ n ++ " requested before it was completed"
  | .structCompletedTwice n => "struct " ++ n ++ " completed twice"
  | .notAStruct t => "complete_struct called on non-struct type " ++ t
  | .integerRangeOf t => "integer range requested for non-integer type " ++ t
  | .rangeOutsideDomain lo hi t =>
    "range [" ++ toString lo ++ ", " ++ toString hi ++ "] outside the domain of " ++ t
  | .nullRangeOf t => "null range requested for non-pointer type " ++ t
  | .cannotMerge a b => "cannot merge value ranges " ++ a ++ " and " ++ b
  | .operandNotInteger r => "integer operator applied to non-integer range " ++ r
  | .resultNotInteger t => "integer operator producing non-integer type " ++ t
  | .zeroDivisor => "attempt to divide by zero"
  | .missingOperand n i =>
    "index out of bounds: the len is " ++ toString n ++ " but the index is " ++ toString i
  | .resolvedTwice f => "pass 2 run twice for function " ++ f
  | .notAFunction f t => "function " ++ f ++ " given non-function type " ++ t
  | .unresolved f => "function " ++ f ++ " used before pass 2"
  | .untypedVariable n => "variable " ++ n ++ " has neither a type nor an initializer"
  | .registeredAs k form => k ++ " registered as a " ++ form
  | .addOverflow => "attempt to add with overflow"
  | .multiplyOverflow => "attempt to multiply with overflow"

/-- Why a step gave no result. -/
inductive Failure where
  | error (e : Error)
  | fault (f : Fault)
deriving DecidableEq

/-- A step that no program text can bring to an error. -/
def Failure.ofFault {α : Type} : Except Fault α → Except Failure α
  | .ok a => .ok a
  | .error f => .error (.fault f)

/-- A step that cannot break a rule. -/
def Failure.ofError {α : Type} : Except Error α → Except Failure α
  | .ok a => .ok a
  | .error e => .error (.error e)

end Gauge
