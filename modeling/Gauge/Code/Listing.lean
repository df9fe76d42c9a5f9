import Gauge.Code

/-!
# Listings

The text of a module's code.  A listing is written entry by entry.  Within each function values and
labels are numbered in the order in which they are first mentioned, and functions are shown by the
symbols they were declared with, so the text does not depend on how they were made.
-/

namespace Gauge

/-- Gives a thing its number: its place among those mentioned before, or the next one. -/
def numberOf {α : Type} [DecidableEq α] (seen : List α) (a : α) : Nat × List α :=
  match seen.findIdx? (· = a) with
  | some i => (i, seen)
  | none => (seen.length, seen ++ [a])

/-- The values and labels mentioned so far. -/
structure Mentions where
  values : List ValueId
  labels : List Label

/-- Writing text that mentions values and labels. -/
abbrev Write := StateT Mentions (Traced Fault)

namespace Write

def value (id : ValueId) : Write String := do
  let m ← get
  let (n, values) := numberOf m.values id
  set { m with values := values }
  return "%" ++ toString n

def label (l : Label) : Write String := do
  let m ← get
  let (n, labels) := numberOf m.labels l
  set { m with labels := labels }
  return "L" ++ toString n

def values : List ValueId → Write (List String)
  | [] => return []
  | id :: ids => do
    let first ← value id
    let rest ← values ids
    return first :: rest

end Write

/-- The name of a conversion in listings. -/
def IntegerConversion.name : IntegerConversion → String
  | .expandSigned => "sext"
  | .expandUnsigned => "zext"
  | .truncate => "truncate"
  | .changeSign => "resign"

/-- A line of a listing. -/
def line (text : String) : String := text ++ "\n"

/-- A line of a function's body. -/
def indented (text : String) : String := line ("    " ++ text)

/-- The text of a literal. -/
def literalText (value : Nat) (type : Ty) : String :=
  if type.isBool then if value ≠ 0 then "true" else "false" else toString value

/-- The line of an event, where functions are shown as `shown` says.  A binary operator shows its
operands' type where the result has another. -/
def Event.write (structs : Structs) (shown : Callee → String) : Event → Write String
  | .literal id value type => do
    let id ← Write.value id
    return indented (id ++ " = " ++ literalText value type ++ " : " ++ type.text)
  | .null id type => do
    let id ← Write.value id
    return indented (id ++ " = null : " ++ type.text)
  | .allocate id type name => do
    let id ← Write.value id
    return indented (id ++ " = alloca " ++ type.text ++ " ; " ++ name)
  | .store target value => do
    let target ← Write.value target
    let value ← Write.value value
    return indented ("store " ++ value ++ " -> " ++ target)
  | .load id type address => do
    let id ← Write.value id
    let address ← Write.value address
    return indented (id ++ " = load " ++ address ++ " : " ++ type.text)
  | .convert how id source sourceType type => do
    let id ← Write.value id
    let source ← Write.value source
    return indented
      (id ++ " = " ++ how.name ++ " " ++ source ++ " : " ++ sourceType.text ++ " -> " ++ type.text)
  | .nonNull id source => do
    let id ← Write.value id
    let source ← Write.value source
    return indented (id ++ " = nonnull " ++ source)
  | .call id callee arguments => do
    let id ← Write.value id
    let arguments ← Write.values arguments
    return indented (id ++ " = call " ++ shown callee ++ "(" ++ ", ".intercalate arguments ++
      ") : " ++ callee.prototype.signature.result.text)
  | .binary id op left right operandType type => do
    let id ← Write.value id
    let left ← Write.value left
    let right ← Write.value right
    let equal ← (liftM (structs.compare operandType type) : Write Bool)
    let shown := if equal then type.text else operandType.text ++ " -> " ++ type.text
    return indented (id ++ " = " ++ left ++ " " ++ op.symbol ++ " " ++ right ++ " : " ++ shown)
  | .unary id op operand type => do
    let id ← Write.value id
    let operand ← Write.value operand
    return indented (id ++ " = " ++ op.symbol ++ operand ++ " : " ++ type.text)
  | .branch id type condition otherwise after => do
    let id ← Write.value id
    let condition ← Write.value condition
    let otherwise ← Write.label otherwise
    let after ← Write.label after
    return indented (id ++ " = if " ++ condition ++ " else " ++ otherwise ++ " end " ++ after ++
      " : " ++ type.text)
  | .branchResult id value => do
    let id ← Write.value id
    let value ← Write.value value
    return indented (id ++ " <- " ++ value)
  | .label here => do
    let here ← Write.label here
    return line (here ++ ":")
  | .jump target => do
    let target ← Write.label target
    return indented ("jump " ++ target)
  | .ret none => return indented "return"
  | .ret (some value) => do
    let value ← Write.value value
    return indented ("return " ++ value)

/-- The lines of some events, where every function is shown by its own symbol. -/
def Event.writeAll (structs : Structs) : List Event → Write String
  | [] => return ""
  | e :: es => do
    let first ← e.write structs fun c => "@" ++ c.symbol
    let rest ← Event.writeAll structs es
    return first ++ rest

/-- A text that mentions nothing from elsewhere. -/
def Write.alone (text : Write String) : Traced Fault String := do
  return (← text.run ⟨[], []⟩).1

/-- The lines of some events that stand alone. -/
def Event.listing (structs : Structs) (events : List Event) : Traced Fault String :=
  (Event.writeAll structs events).alone

/-- The line that declares a function. -/
def declaration (name symbol : String) (type : Ty) (abi : Abi) : String :=
  line ("declare @" ++ symbol ++ " " ++ name ++ " : " ++ type.text ++ " [" ++ abi.name ++ "]")

def Callee.listing (c : Callee) : String :=
  declaration c.name c.symbol c.prototype.type c.prototype.abi

/-! ### Entries -/

/-- What a listing is told, in order.  Functions and modules go by their numbers. -/
inductive Entry where
  | enterModule (id : Nat) (name file : String)
  | leaveModule
  | declare (id : Nat) (name symbol : String) (type : Ty) (abi : Abi)
  /-- What follows belongs to a function, which has values and labels of its own. -/
  | beginFunction
  | enterFunction (id : Nat) (result : Ty) (arguments : List (ValueId × Argument))
  | leaveFunction
  | event (e : Event)

/-- The symbols of the functions declared so far, the last one first. -/
abbrev Symbols := List (Nat × String)

/-- How a function is shown: by its symbol, or by its number if it was not declared. -/
def Symbols.show (symbols : Symbols) (id : Nat) : String :=
  "@" ++ (symbols.lookup id).getD (toString id)

/-- The parameters of a function, as its head shows them. -/
def Write.parameters : List (ValueId × Argument) → Write (List String)
  | [] => return []
  | (id, a) :: as => do
    let id ← Write.value id
    let rest ← Write.parameters as
    return (id ++ " " ++ a.name ++ ": " ++ a.type.text) :: rest

namespace Entry

/-- The text of an entry. -/
def write (structs : Structs) (symbols : Symbols) : Entry → Write String
  | .enterModule _ name file => return line ("module " ++ name ++ " (" ++ file ++ ")")
  | .leaveModule => return line "end module"
  | .declare _ name symbol type abi => return declaration name symbol type abi
  | .beginFunction => do
    set (⟨[], []⟩ : Mentions)
    return ""
  | .enterFunction id result arguments => do
    let arguments ← Write.parameters arguments
    return line ("def " ++ symbols.show id ++ "(" ++ ", ".intercalate arguments ++ ") -> " ++
      result.text ++ " \x7b")
  | .leaveFunction => return line "\x7d"
  | .event e => e.write structs fun c => symbols.show c.id

/-- The symbols behind an entry. -/
def declared (symbols : Symbols) : Entry → Symbols
  | .declare id _ symbol _ _ => (id, symbol) :: symbols
  | _ => symbols

/-- The text of some entries. -/
def writeAll (structs : Structs) : Symbols → List Entry → Write String
  | _, [] => return ""
  | symbols, e :: es => do
    let first ← e.write structs symbols
    let rest ← writeAll structs (e.declared symbols) es
    return first ++ rest

/-- The text of a whole listing. -/
def listing (structs : Structs) (entries : List Entry) : Traced Fault String :=
  (writeAll structs [] entries).alone

end Entry

/-! ### Modules -/

def Callee.entry (c : Callee) : Entry :=
  .declare c.id c.name c.symbol c.prototype.type c.prototype.abi

/-- A function: its head, its events and its end. -/
def Function.entries (f : Function) : List Entry :=
  .beginFunction :: .enterFunction f.callee.id f.result
    (f.arguments.map fun a => (.slot a.slot, a)) ::
    f.emit.events.map .event ++ [.leaveFunction]

/-- A module: all that it declares, and then the functions that it defines. -/
def Module.entries (m : Module) : List Entry :=
  .enterModule 0 m.name m.file :: m.declarations.map Callee.entry ++
    m.functions.flatMap (·.entries) ++
    [.leaveModule]

/-- The text of a module. -/
def Module.listing (structs : Structs) (m : Module) : Traced Fault String :=
  Entry.listing structs m.entries

end Gauge
