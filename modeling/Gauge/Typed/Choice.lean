import Gauge.Typed

/-!
# Choosing among overloads

The operands of an operator or a call must convert to the parameters of one overload.  Overloads
that give the expected type go before the rest, and among those the one whose conversions weigh
least is chosen; it must be the only one of its weight.
-/

namespace Gauge

/-- An overload that may be chosen. -/
structure Candidate (α : Type) where
  value : α
  result : Ty
  parameters : List Ty

/-- The outcome of a choice. -/
inductive Choice (α : Type) where
  | unique (value : α)
  | ambiguous
  | none

/-- A candidate and what its conversions weigh. -/
structure Scored (α : Type) where
  candidate : Candidate α
  weight : Weight

namespace Typed

/-- The weight of converting an operand without being asked to, if that is possible. -/
def conversionWeight (scope : Scope) (operand : Typed) (target : Ty) :
    Traced Fault (Option Weight) := do
  if ← scope.compare operand.type target then return some .zero
  match ← scope.search operand.type operand.range ⟨target, false, scope.castLimit⟩ with
  | .chain c _ => return some c.weight
  | .unreachable => return none

/-- The weight of converting all operands, on top of `total`. -/
def conversionWeights (scope : Scope) (total : Weight) :
    List Typed → List Ty → Traced Fault (Option Weight)
  | e :: es, t :: ts => do
    match ← e.conversionWeight scope t with
    | some w => conversionWeights scope (total + w) es ts
    | none => return none
  | _, _ => return some total

end Typed

namespace Candidate

variable {α : Type}

/-- The candidates that the operands convert to, with their weights. -/
def scored (scope : Scope) (operands : List Typed) :
    List (Candidate α) → Traced Fault (List (Scored α))
  | [] => return []
  | c :: cs => do
    let weight ← Typed.conversionWeights scope .zero operands c.parameters
    let rest ← scored scope operands cs
    match weight with
    | some w => return ⟨c, w⟩ :: rest
    | none => return rest

/-- Those that give a type. -/
def giving (scope : Scope) (t : Ty) : List (Scored α) → Traced Fault (List (Scored α))
  | [] => return []
  | c :: cs => do
    let fits ← scope.compare c.candidate.result t
    let rest ← giving scope t cs
    return if fits then c :: rest else rest

/-- Those that give the expected type, if there are any and a value is expected. -/
def preferred (scope : Scope) (expected : Option Ty) (cs : List (Scored α)) :
    Traced Fault (List (Scored α)) :=
  match expected with
  | none => return cs
  | some t =>
    if t.isVoid then return cs
    else do
      let fitting ← giving scope t.bare cs
      return if fitting.isEmpty then cs else fitting

/-- The lightest, when `best` is the lightest so far and `tied` says whether it is one of several.
-/
def lightestFrom (best : Scored α) (tied : Bool) : List (Scored α) → Choice α
  | [] => if tied then .ambiguous else .unique best.candidate.value
  | c :: cs =>
    if best.weight.lt c.weight then lightestFrom best tied cs
    else if c.weight = best.weight then lightestFrom best true cs
    else lightestFrom c false cs

def lightest : List (Scored α) → Choice α
  | [] => .none
  | c :: cs => lightestFrom c false cs

/-- Chooses the candidate for some operands. -/
def choose (scope : Scope) (candidates : List (Candidate α)) (operands : List Typed)
    (expected : Option Ty) : Traced Fault (Choice α) := do
  let scored ← scored scope operands candidates
  return lightest (← preferred scope expected scored)

end Candidate

end Gauge
