import Gauge.Typed.Check

/-!
# Modules

A module's structs and functions may refer to each other in any order.  So all names are reserved
first; then structs are laid out, those held by value before those that hold them; then the
signatures are resolved; and last the bodies are checked.
-/

namespace Gauge

/-- A parameter of a checked function and its storage. -/
structure Argument where
  slot : Nat
  name : String
  type : Ty

/-- A checked function. -/
structure Function where
  callee : Callee
  arguments : List Argument
  result : Ty
  body : Typed
  span : Span

/-- A checked module: all functions it declares and those it defines, in the order of the source. -/
structure Module where
  name : String
  file : String
  declarations : List Callee
  functions : List Function
  structs : List StructRef

namespace Module

/-- A struct whose members are still as written. -/
structure PendingStruct where
  ref : StructRef
  decl : StructDecl

/-- A function that has its number. -/
structure PendingFunction where
  id : Nat
  decl : FunctionDecl

/-- The reserved names of a module. -/
structure Reserved where
  structs : List PendingStruct
  functions : List PendingFunction

/-- Reserves the names of all items. -/
def reserve (scope : Scope) : List Item → Except Error (Reserved × Scope)
  | [] => .ok (⟨[], []⟩, scope)
  | .struct decl :: items => do
    let (ref, scope) ← scope.declareStruct decl.name decl.span.start
    let (rest, scope) ← reserve scope items
    return ({ rest with structs := ⟨ref, decl⟩ :: rest.structs }, scope)
  | .function decl :: items => do
    let (id, scope) ← scope.reserveFunction decl.name decl.span.start
    let (rest, scope) ← reserve scope items
    return ({ rest with functions := ⟨id, decl⟩ :: rest.functions }, scope)

/-- Lays out a struct after all structs that it holds by value.  The structs `within` are being laid
out around it; one of them met again would hold itself. -/
def completeStruct (pending : List PendingStruct) :
    Nat → (within : List String) → String → Scope → Except Failure Scope
  | 0, _, _, scope => .ok scope
  | n + 1, within, name, scope =>
    match pending.find? (·.decl.name = name) with
    | none => .ok scope
    | some p =>
      if scope.structs.isReady p.ref then .ok scope
      else if name ∈ within then .error (.error ⟨.incompleteType name, p.decl.span.start⟩)
      else do
        let (members, scope) ← p.decl.members.foldlM
          (fun ((members, scope) : List (String × Ty) × Scope) (memberName, memberType) => do
            let scope ← match memberType.byValueName? with
              | some inner => completeStruct pending n (name :: within) inner scope
              | none => pure scope
            let t ← Failure.ofError (scope.resolveType memberType)
            return (members ++ [(memberName, t)], scope))
          ([], scope)
        Failure.ofFault (scope.completeStruct (.struct .none p.ref) members)

/-- Lays out all structs. -/
def completeStructs (pending : List PendingStruct) (scope : Scope) : Except Failure Scope :=
  pending.foldlM
    (fun scope p => completeStruct pending (pending.length + 1) [] p.decl.name scope) scope

/-- The type of a function as declared. -/
def signature (scope : Scope) (decl : FunctionDecl) : Except Error Signature := do
  let parameters ← decl.parameters.mapM fun p => (scope.resolveType p.type).map Ty.bare
  let result ← match decl.result with
    | some t => (scope.resolveType t).map Ty.bare
    | none => pure Builtin.void
  return ⟨some decl.name, result, parameters⟩

/-- How a declared function is called. -/
def abi (decl : FunctionDecl) : Except Error Abi :=
  match decl.body with
  | .block _ => .ok .native
  | .foreign name span =>
    match Abi.ofName? name with
    | some abi => .ok abi
    | none => .error ⟨.unidentifiedAbi name, span.start⟩

/-- Resolves what all functions are. -/
def resolveFunctions (pending : List PendingFunction) (scope : Scope) : Traced Failure Scope :=
  pending.foldlM
    (fun scope p => do
      let signature ← Failure.ofError (signature scope p.decl)
      let abi ← Failure.ofError (abi p.decl)
      scope.resolveFunction p.id (signature.type .none none) abi p.decl.span.start) scope

/-- Adds the parameters of a function to the scope of its body.  `mut` on a parameter matters only
there. -/
def addParameters (scope : Scope) : List (Parameter × Ty) → Check (List Argument × Scope)
  | [] => return ([], scope)
  | (p, t) :: rest => do
    let inside ← Check.ofError (scope.resolveType p.type)
    let slot ← Check.newSlot
    let v : Variable := ⟨p.name, inside, scope.rangeOf t, slot⟩
    let scope ← Check.ofError (scope.addVariable v p.span.start)
    let (arguments, scope) ← addParameters scope rest
    return (⟨slot, p.name, t⟩ :: arguments, scope)

/-- Checks the body of a function. -/
def checkFunction (scope : Scope) (callee : Callee) (decl : FunctionDecl) (body : Block) :
    Check Function := do
  let signature := callee.prototype.signature
  let scope := scope.push.setReturnType signature.result
  let (arguments, scope) ← addParameters scope (decl.parameters.zip signature.parameters)
  let body ← body.check scope scope.expressionLimit (.required signature.result)
  return ⟨callee, arguments, signature.result, body, decl.span⟩

/-- Checks all functions that have a body. -/
def checkFunctions (scope : Scope) : List PendingFunction → Traced Failure (List Function)
  | [] => return []
  | p :: ps =>
    match p.decl.body with
    | .foreign _ _ => checkFunctions scope ps
    | .block body => do
      let callee ← Failure.ofFault (scope.callee p.id)
      let (first, _) ← (checkFunction scope callee p.decl body).run ⟨.zero, 0⟩
      let rest ← checkFunctions scope ps
      return first :: rest

/-- Checks a module in a scope of its own; gives that scope as well, for what it says of structs. -/
def build (scope : Scope) (name file : String) (tree : ModuleSyntax) :
    Traced Failure (Module × Scope) := do
  let (reserved, scope) ← Failure.ofError (reserve scope tree.items)
  let scope ← completeStructs reserved.structs scope
  let scope ← resolveFunctions reserved.functions scope
  let functions ← checkFunctions scope reserved.functions
  let declarations ← Failure.ofFault (reserved.functions.mapM fun p => scope.callee p.id)
  return (⟨name, file, declarations, functions, reserved.structs.map (·.ref)⟩, scope)

end Module

end Gauge
