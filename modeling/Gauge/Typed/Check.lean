import Gauge.Builtin
import Gauge.Typed.Choice

/-!
# Type checking

From syntax to typed trees.  An expression is given its own type and range from its parts, and is
then converted to what is expected of it.  The weight of all conversions within a statement is
added up and must stay within a limit; every statement starts from nothing.
-/

namespace Gauge

/-- What is expected of an expression. -/
inductive Expected where
  | anything
  /-- A type to convert to where that is possible. -/
  | preferably (type : Ty)
  /-- A type that the expression must convert to; `Void` discards any value. -/
  | required (type : Ty)

namespace Expected

def type? : Expected → Option Ty
  | .anything => none
  | .preferably t | .required t => some t

def isRequired : Expected → Bool
  | .required _ => true
  | _ => false

/-- Whether a value is of use at all. -/
def wantsValue (x : Expected) : Bool := !x.type?.any Ty.isVoid

end Expected

/-- The weight spent in the current statement, and the storage handed out to variables. -/
structure Progress where
  spent : Weight
  slots : Nat

/-- A step of checking. -/
abbrev Check := StateT Progress (Traced Failure)

namespace Check

def fail {α : Type} (cause : Cause) (position : Position) : Check α :=
  throw (.error ⟨cause, position⟩)

def ofTraced {α : Type} (x : Traced Fault α) : Check α := liftM (Failure.ofTraced x)

def ofFault {α : Type} (x : Except Fault α) : Check α := ofTraced (.ofExcept x)

def ofError {α : Type} (x : Except Error α) : Check α :=
  liftM (Traced.ofExcept (Failure.ofError x))

/-- Adds to the weight of the current statement. -/
def spend (weight limit : Weight) (position : Position) : Check Unit := do
  let p ← get
  let spent := p.spent + weight
  if limit.lt spent then fail .expressionTooExpensive position
  else set { p with spent := spent }

/-- Storage for a variable. -/
def newSlot : Check Nat := do
  let p ← get
  set { p with slots := p.slots + 1 }
  return p.slots

/-- Runs a statement: it starts with nothing spent, and what it spends does not count outside. -/
def statement {α : Type} (step : Check α) : Check α := do
  let outside := (← get).spent
  modify fun p => { p with spent := .zero }
  let a ← step
  modify fun p => { p with spent := outside }
  return a

end Check

/-! ### Conversions -/

namespace Typed

/-- A literal taken for a value of the target type, where the type can hold it. -/
def adopt (scope : Scope) (target : Ty) (e : Typed) : Except Fault (Option Typed) :=
  if !e.facts.chain.isIdentity || target.isFlagged then .ok none
  else match e.node with
    | .constant (.integer value) =>
      match target.bounds? with
      | some (_, high) =>
        if target.isInteger ∧ (value : Int) ≤ high then do
          let range ← Range.literal target value
          return some (.mk { e.facts with type := target, range := range } e.node)
        else .ok none
      | none => .ok none
    | .constant .null =>
      if target.isPointer then do
        let range ← scope.structs.nullRange target
        return some (.mk { e.facts with type := target, range := range } e.node)
      else .ok none
    | _ => .ok none

/-- Converts an expression to a type; one that need not succeed leaves it as it is. -/
def convert (scope : Scope) (limit : Weight) (target : Ty) (mandatory explicit : Bool) (e : Typed) :
    Check Typed := do
  if ← Check.ofTraced (scope.compare e.type target) then return e
  match ← Check.ofFault (e.adopt scope target) with
  | some adopted => return adopted
  | none =>
    let query : CastQuery := ⟨target, explicit, scope.castLimit⟩
    let found : Traced Failure (Option Chain) :=
      scope.world.casts.resolve scope.structs e.type e.range query mandatory e.position
    match ← (liftM found : Check (Option Chain)) with
    | some chain =>
      Check.spend chain.weight limit e.position
      return e.attach chain
    | none => return e

/-- Converts an expression to what is expected of it. -/
def meet (scope : Scope) (limit : Weight) (expected : Expected) (e : Typed) : Check Typed :=
  match expected.type? with
  | some t => if t.isVoid then return e else e.convert scope limit t expected.isRequired false
  | none => return e

/-- The value behind a reference. -/
def decay (scope : Scope) (limit : Weight) (e : Typed) : Check Typed :=
  if e.type.isFlagged then e.convert scope limit e.type.bare true false else return e

/-- The first value of a variable: whatever the expression gives, as a value. -/
def asValue (scope : Scope) (limit : Weight) (e : Typed) : Check Typed :=
  e.meet scope limit (.required e.type.bare)

end Typed

/-! ### Expressions, given their parts -/

namespace Literal

/-- Whether a number is written with a mark for another base than ten. -/
def hasBaseMark (digits : List Char) : Bool :=
  match digits with
  | '0' :: c :: _ :: _ => ['x', 'b', 'o', 'X', 'B', 'O'].contains c
  | _ => false

/-- The value of a number as written. -/
def readNumber (text : String) : Except Cause Nat :=
  let digits := text.toList
  if hasBaseMark digits then .error (.notImplemented ("non-decimal literal " ++ text))
  else if !digits.all fun c => (digitValue? c).isSome then .error (.invalidDecimalLiteral text)
  else match readNumeral 0xFFFFFFFFFFFFFFFF digits with
    | .ok n => .ok n
    | .error _ => .error (.numberParseError text)

/-- The typed form of a literal: numbers have the narrowest unsigned type. -/
def typed (scope : Scope) (span : Span) : Literal → Check Typed
  | .number text =>
    match readNumber text with
    | .error cause => Check.fail cause span.start
    | .ok n => do
      let t := Builtin.smallestUnsigned n
      let range ← Check.ofFault (Range.literal t n)
      return .plain (.constant (.integer n)) t range span
  | .bool b => return .plain (.constant (.bool b)) Builtin.bool (.bools (.exactly b)) span
  | .null => do
    let t := Ty.pointerTo Builtin.void
    let range ← Check.ofFault (scope.structs.nullRange t)
    return .plain (.constant .null) t range span

end Literal

namespace Typed

/-- A name used as a value: it denotes the storage of a variable. -/
def ofName (scope : Scope) (span : Span) (name : String) : Check Typed :=
  match scope.lookupSymbol name with
  | some (.variable v) => return .plain (.variable v.slot v.name) v.type.asReference v.range span
  | some (.functions _) => Check.fail (.cannotTakeValueOfFunction name) span.start
  | none => Check.fail (.symbolNotFound name) span.start

/-- The overloads of an operator as candidates. -/
def operatorCandidates (scope : Scope) (op : Operator) : List (Candidate Overload) :=
  (scope.overloadsOf op).map fun o => ⟨o, o.result, o.parameters⟩

/-- The range of an operator's result. -/
def operatorRange (o : Overload) (operands : List Range) (span : Span) : Check Range := do
  match ← Check.ofFault (o.transfer.apply o.result operands) with
  | .ok range => return range
  | .error violation => Check.fail (.knownRuntimeViolation violation.message) span.start

def unary (scope : Scope) (limit : Weight) (expected : Expected) (span : Span) (op : UnaryOp)
    (operand : Typed) : Check Typed := do
  let candidates := operatorCandidates scope (.unary op)
  let name := "operator " ++ op.symbol
  match ← Check.ofTraced (Candidate.choose scope candidates [operand] expected.type?) with
  | .ambiguous => Check.fail (.ambiguousOverload name) span.start
  | .none => Check.fail (.noMatchingOverload name) span.start
  | .unique o =>
    let t ← Check.ofFault (o.parameter 0)
    let operand ← operand.convert scope limit t true false
    let range ← operatorRange o [operand.range] span
    return .plain (.unary op operand) o.result range span

def binary (scope : Scope) (limit : Weight) (expected : Expected) (span : Span) (op : BinaryOp)
    (left right : Typed) : Check Typed := do
  let candidates := operatorCandidates scope (.binary op)
  match ← Check.ofTraced (Candidate.choose scope candidates [left, right] expected.type?) with
  | .ambiguous => Check.fail (.ambiguousOverload ("operator " ++ op.symbol)) span.start
  | .none =>
    Check.fail (.incompatibleTypes op.symbol left.type.text right.type.text) span.start
  | .unique o =>
    let leftType ← Check.ofFault (o.parameter 0)
    let left ← left.convert scope limit leftType true false
    let rightType ← Check.ofFault (o.parameter 1)
    let right ← right.convert scope limit rightType true false
    let range ← operatorRange o [left.range, right.range] span
    return .plain (.binary op left right leftType) o.result range span

/-- `&&` and `||` of two booleans. -/
def logical (span : Span) (op : LogicalOp) (left right : Typed) : Typed :=
  let a := left.range.bools?.getD .any
  let b := right.range.bools?.getD .any
  let range := match op with
    | .and => a.and b
    | .or => a.or b
  .plain (.logical op left right) Builtin.bool (.bools range) span

def addressOf (span : Span) (operand : Typed) : Check Typed :=
  if operand.type.isReference then
    return .plain (.addressOf operand) (.pointerTo operand.type.notReference)
      (.pointer operand.range (.exactly true)) span
  else Check.fail .lvalueRequired span.start

def dereference (scope : Scope) (limit : Weight) (span : Span) (operand : Typed) : Check Typed := do
  match operand.type.pointed? with
  | none => Check.fail (.pointerExpected operand.type.text) span.start
  | some pointed =>
    let operand ← operand.decay scope limit
    match operand.range with
    | .pointer range initialized =>
      if initialized.trues then
        return .plain (.dereference operand) pointed.asReference range span
      else
        Check.fail (.knownRuntimeViolation "dereferencing a pointer that is always null") span.start
    | _ => return .plain (.dereference operand) pointed.asReference (scope.rangeOf pointed) span

/-- The type that a target takes, if it can be written to. -/
def assignable (span : Span) (target : Typed) : Check Ty :=
  if !target.type.isReference then Check.fail .lvalueRequired span.start
  else if !target.type.isMutable then
    Check.fail (.assignToImmutable target.type.text) span.start
  else return target.type.bare

/-- An assignment denotes its target. -/
def assign (span : Span) (target value : Typed) : Typed :=
  .plain (.assign target value) target.type target.range span

/-- The functions that a call may mean. -/
def calledFunctions (scope : Scope) (span : Span) (name : String) : Check (List Nat) :=
  match scope.lookupSymbol name with
  | some (.functions ids) => return ids
  | some (.variable v) => Check.fail (.tryToCallNonCallable v.type.text) span.start
  | none => Check.fail (.symbolNotFound name) span.start

/-- Converts arguments to the parameters they are passed for. -/
def passAll (scope : Scope) (limit : Weight) : List Typed → List Ty → Check (List Typed)
  | e :: es, t :: ts => do
    let first ← e.convert scope limit t.bare true false
    let rest ← passAll scope limit es ts
    return first :: rest
  | _, _ => return []

/-- The functions that take the right number of arguments, as candidates. -/
def callCandidates (callees : List Callee) (count : Nat) : List (Candidate Callee) :=
  (callees.filter fun c => c.prototype.signature.parameters.length == count).map fun c =>
    ⟨c, c.prototype.signature.result, c.prototype.signature.parameters.map Ty.bare⟩

def call (scope : Scope) (limit : Weight) (expected : Expected) (span : Span) (name : String)
    (ids : List Nat) (arguments : List Typed) : Check Typed := do
  let callees ← Check.ofFault (ids.mapM scope.callee)
  let candidates := callCandidates callees arguments.length
  match ← Check.ofTraced (Candidate.choose scope candidates arguments expected.type?) with
  | .ambiguous => Check.fail (.ambiguousOverload name) span.start
  | .none => Check.fail (.noMatchingOverload name) span.start
  | .unique c =>
    let signature := c.prototype.signature
    let arguments ← passAll scope limit arguments signature.parameters
    return .plain (.call c arguments) signature.result (scope.rangeOf signature.result) span

/-- The range of a conditional.  An arm that returns adds nothing to it. -/
def armsRange (scope : Scope) (condition thenArm elseArm : Typed) : Traced Fault Range :=
  if thenArm.diverges && elseArm.diverges then return scope.rangeOf thenArm.type
  else if thenArm.diverges then return elseArm.range
  else if elseArm.diverges then return thenArm.range
  else do
    if !(← scope.compare elseArm.type thenArm.type) then return scope.rangeOf thenArm.type
    match condition.range.literalValue? with
    | some 0 => return elseArm.range
    | some _ => return thenArm.range
    | none => thenArm.range.merge elseArm.range

/-- A block.  One that returns is taken for whatever is expected. -/
def block (scope : Scope) (expected : Expected) (span : Span) (statements : List TypedStmt)
    (result : Option Typed) : Typed :=
  let node := Node.block statements result
  match result, expected.type? with
  | some value, _ => .plain node value.type value.range span
  | none, some t =>
    if node.diverges then .plain node t (scope.rangeOf t) span
    else .plain node Builtin.void .void span
  | none, none => .plain node Builtin.void .void span

end Typed

/-! ### Statements, given their parts -/

namespace TypedStmt

/-- Defines a variable in the innermost frame.  What can be written to is only known by its type. -/
def defineIn (scope : Scope) (span : Span) (name : String) (type : Ty) (init : Option Typed) :
    Check (TypedStmt × Scope) := do
  if type.isVoid then Check.fail (.castNotAllowed type.text ("variable " ++ name)) span.start
  let range := match init with
    | some value => if type.isMutable then scope.rangeOf type else value.range
    | none => scope.rangeOf type
  let slot ← Check.newSlot
  let scope ← Check.ofError (scope.addVariable ⟨name, type, range, slot⟩ span.start)
  return (.define slot name type init, scope)

/-- The type that `return` has to give. -/
def returnType (scope : Scope) (span : Span) : Check Ty :=
  match scope.returnType? with
  | some t => return t
  | none => Check.fail .returnOutsideFunction span.start

/-- What a value behind `return` is expected to be. -/
def returnExpected (t : Ty) : Expected := if t.isVoid then .anything else .required t

/-- A `return` with or without a value: a function without result gives none back. -/
def retOf (span : Span) (t : Ty) : Option Typed → Check TypedStmt
  | none =>
    if t.isVoid then return .ret none
    else Check.fail (.castNotAllowed Builtin.void.text t.text) span.start
  | some value =>
    if t.isVoid && !value.type.isVoid then
      Check.fail (.castNotAllowed value.type.text t.text) span.start
    else return .ret (some value)

end TypedStmt

/-! ### Trees -/

mutual

/-- An expression with the type that its parts give it. -/
def Expr.natural (scope : Scope) (limit : Weight) (expected : Expected) : Expr → Check Typed
  | .literal span value => value.typed scope span
  | .identifier span name => Typed.ofName scope span name
  | .prefixed span .negate e => do
    Typed.unary scope limit expected span .negate (← e.natural scope limit .anything)
  | .prefixed span .not e => do
    Typed.unary scope limit expected span .not (← e.natural scope limit .anything)
  | .prefixed span .addressOf e => do
    Typed.addressOf span (← e.natural scope limit .anything)
  | .prefixed span .dereference e => do
    Typed.dereference scope limit span (← e.natural scope limit .anything)
  | .binary span op a b => do
    let left ← a.natural scope limit .anything
    let right ← b.natural scope limit .anything
    Typed.binary scope limit expected span op left right
  | .logical span op a b => do
    let bool := Expected.required Builtin.bool
    let left ← (← a.natural scope limit bool).meet scope limit bool
    let right ← (← b.natural scope limit bool).meet scope limit bool
    return Typed.logical span op left right
  | .assign span a b => do
    let target ← a.natural scope limit .anything
    let type ← target.assignable span
    let value ← (← b.natural scope limit (.required type)).meet scope limit (.required type)
    return Typed.assign span target value
  | .call span (.identifier nameSpan name) arguments => do
    let ids ← Typed.calledFunctions scope nameSpan name
    let arguments ← Expr.naturals scope limit arguments
    Typed.call scope limit expected span name ids arguments
  | .call span callee _ => do
    let callee ← callee.natural scope limit .anything
    Check.fail (.tryToCallNonCallable callee.type.text) span.start
  | .conditional span c thenBlock none => do
    let bool := Expected.required Builtin.bool
    let condition ← (← c.natural scope limit bool).meet scope limit bool
    let thenArm ← thenBlock.natural scope limit (.required Builtin.void)
    return .plain (.conditional condition thenArm none) Builtin.void .void span
  | .conditional span c thenBlock (some elseBlock) => do
    let bool := Expected.required Builtin.bool
    let condition ← (← c.natural scope limit bool).meet scope limit bool
    let thenArm ← (← thenBlock.natural scope limit expected).meet scope limit expected
    let thenArm ← thenArm.decay scope limit
    let fromThen := Expected.required thenArm.type
    let elseArm ← (← elseBlock.natural scope limit fromThen).meet scope limit fromThen
    let range ← Check.ofTraced (Typed.armsRange scope condition thenArm elseArm)
    return .plain (.conditional condition thenArm (some elseArm)) thenArm.type range span
  | .block b => b.natural scope limit expected
  | .cast span e target => do
    let target ← Check.ofError (scope.resolveType target)
    let operand ← e.natural scope limit .anything
    let operand ← operand.convert scope limit target true true
    return .plain (.cast operand) operand.type operand.range span

/-- The arguments of a call. -/
def Expr.naturals (scope : Scope) (limit : Weight) : List Expr → Check (List Typed)
  | [] => return []
  | e :: es => do
    let first ← e.natural scope limit .anything
    let rest ← Expr.naturals scope limit es
    return first :: rest

/-- A block in a scope of its own. -/
def Block.natural (scope : Scope) (limit : Weight) (expected : Expected) : Block → Check Typed
  | .mk span statements => do
    let (statements, result) ← Stmt.checkAll scope.push limit expected statements
    return Typed.block scope expected span statements result

/-- The statements of a block.  Where a value is wanted, an expression at the end gives it. -/
def Stmt.checkAll (scope : Scope) (limit : Weight) (expected : Expected) :
    List Stmt → Check (List TypedStmt × Option Typed)
  | [] => return ([], none)
  | s :: ss =>
    match s, ss, expected.wantsValue with
    | .expr _ e, [], true => do
      let result ← (← e.natural scope limit expected).meet scope limit expected
      return ([], some result)
    | s, ss, _ => do
      let (first, scope) ← s.check scope
      let (rest, result) ← Stmt.checkAll scope limit expected ss
      return (first :: rest, result)

/-- A statement, and the scope behind it. -/
def Stmt.check (scope : Scope) : Stmt → Check (TypedStmt × Scope)
  | .expr _ e => Check.statement do
    let value ← e.natural scope scope.expressionLimit (.required Builtin.void)
    return (.expr value, scope)
  | .define span name (some type) none => Check.statement do
    let type ← Check.ofError (scope.resolveType type)
    TypedStmt.defineIn scope span name type none
  | .define span name (some type) (some e) => Check.statement do
    let limit := scope.expressionLimit
    let type ← Check.ofError (scope.resolveType type)
    let expected := Expected.required type.bare
    let value ← (← e.natural scope limit expected).meet scope limit expected
    let value ← value.asValue scope limit
    TypedStmt.defineIn scope span name type (some value)
  | .define span name none (some e) => Check.statement do
    let limit := scope.expressionLimit
    let value ← e.natural scope limit .anything
    let value ← value.asValue scope limit
    TypedStmt.defineIn scope span name value.type (some value)
  | .define _ name none none => Check.statement do
    Check.ofFault (.error (.untypedVariable name))
  | .ret span none => Check.statement do
    let type ← TypedStmt.returnType scope span
    return (← TypedStmt.retOf span type none, scope)
  | .ret span (some e) => Check.statement do
    let limit := scope.expressionLimit
    let type ← TypedStmt.returnType scope span
    let expected := TypedStmt.returnExpected type
    let value ← (← e.natural scope limit expected).meet scope limit expected
    return (← TypedStmt.retOf span type (some value), scope)
  | .loop _ c body => Check.statement do
    let limit := scope.expressionLimit
    let bool := Expected.required Builtin.bool
    let condition ← (← c.natural scope limit bool).meet scope limit bool
    let body ← body.natural scope limit (.required Builtin.void)
    return (.loop condition body, scope)

end

/-- A block that stands as an expression is checked as the block it is. -/
theorem Expr.natural_block (scope : Scope) (limit : Weight) (expected : Expected) (b : Block) :
    (Expr.block b).natural scope limit expected = b.natural scope limit expected := by
  rw [Expr.natural]

/-- The value of an expression that stands as a statement is not wanted. -/
theorem Stmt.check_expr (scope : Scope) (span : Span) (e : Expr) :
    (Stmt.expr span e).check scope = Check.statement (do
      let value ← e.natural scope scope.expressionLimit (.required Builtin.void)
      return (.expr value, scope)) := by
  rw [Stmt.check]

/-- An expression, converted to what is expected of it. -/
def Expr.check (scope : Scope) (limit : Weight) (expected : Expected) (e : Expr) : Check Typed := do
  (← e.natural scope limit expected).meet scope limit expected

/-- A block, converted to what is expected of it. -/
def Block.check (scope : Scope) (limit : Weight) (expected : Expected) (b : Block) :
    Check Typed := do
  (← b.natural scope limit expected).meet scope limit expected

end Gauge
