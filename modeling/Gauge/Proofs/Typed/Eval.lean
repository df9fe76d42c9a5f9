import Gauge.Code
import Gauge.Proofs.Range.Member

/-!
# Proofs — running typed trees

The meaning of a typed tree: operands are run from left to right, `&&` and `||` run their right side
only where it matters, of two arms only the chosen one is run, conversions are applied in order
after their node, and `return` leaves the function at once.  An expression of a reference type is
worth the address of its storage.

Running is a function into `Option`: operations that fail give nothing, and so do loops that take
more than a given number of turns, calls, and writing to a target of type `Void`, which has no
values.

Main definition: `Function.eval`.
-/

namespace Gauge

variable {fill : Nat → Ty → Option Value} {turns : Nat} {σ σ' : State}

/-! ### Values and memory -/

/-- What an expression is worth: a number, an address or null, a struct, which nothing looks into,
or nothing at all. -/
inductive Value where
  | int (n : Int)
  | address (cell : Option Nat)
  | struct (content : List Nat)
  | unit
deriving DecidableEq

namespace Value

def int? : Value → Option Int
  | .int n => some n
  | _ => none

/-- Whether a condition holds. -/
def holds? (v : Value) : Option Bool := v.int?.map fun n => decide (n ≠ 0)

/-- Whether an address is not null. -/
def nonNull? : Value → Option Value
  | .address cell => some (.int (truth cell.isSome))
  | _ => none

end Value

/-- The storage of a program, and all that was stored to it, in order.  A cell may have no content
that can be read. -/
structure Memory where
  cells : List (Option Value)
  stores : List (Nat × Value)
deriving DecidableEq

namespace Memory

/-- The content of a cell. -/
def load? (m : Memory) : Value → Option Value
  | .address (some cell) => m.cells[cell]?.join
  | _ => none

/-- Writes to a cell. -/
def store? (m : Memory) (target v : Value) : Option Memory :=
  match target with
  | .address (some cell) =>
    if cell < m.cells.length then some ⟨m.cells.set cell (some v), m.stores ++ [(cell, v)]⟩ else
      none
  | _ => none

/-- Adds a cell; its address is the number of cells so far. -/
def allocate (m : Memory) (content : Option Value) : Memory :=
  { m with cells := m.cells ++ [content] }

end Memory

/-! ### Operations -/

def BinaryOp.perform? (type : Ty) (op : BinaryOp) (a b : Value) : Option Value := do
  let x ← a.int?
  let y ← b.int?
  (op.run? type x y).map .int

def UnaryOp.perform? (type : Ty) (op : UnaryOp) (a : Value) : Option Value := do
  let x ← a.int?
  (op.run? type x).map .int

/-- The number of bits of a scalar type. -/
def Ty.bits (t : Ty) : Nat := (t.scalar?.map (·.size.toNat * 8)).getD 0

/-- A number as it is converted: its bits in the old type are read with or without a sign, and the
result is taken modulo the size of the new type. -/
def IntegerConversion.run? (source type : Ty) (x : Int) : IntegerConversion → Option Int
  | .expandSigned => type.wrap? (x.bmod (2 ^ source.bits))
  | .expandUnsigned => type.wrap? (x % 2 ^ source.bits)
  | .truncate | .changeSign => type.wrap? x

def IntegerConversion.perform? (source type : Ty) (how : IntegerConversion) (v : Value) :
    Option Value := do
  let x ← v.int?
  (how.run? source type x).map .int

/-- The value after one conversion. -/
def CastAction.perform? (m : Memory) (source type : Ty) (v : Value) : CastAction → Option Value
  | .decay => m.load? v
  | .expandSigned => IntegerConversion.expandSigned.perform? source type v
  | .expandUnsigned => IntegerConversion.expandUnsigned.perform? source type v
  | .truncate => IntegerConversion.truncate.perform? source type v
  | .changeSign => IntegerConversion.changeSign.perform? source type v
  | .pointerToBool => v.nonNull?
  | .reinterpret => some v

/-- The value after some conversions. -/
def Step.performAll? (m : Memory) (type : Ty) (v : Value) : List Step → Option Value
  | [] => some v
  | st :: sts => do
    let w ← st.edge.action.perform? m type st.edge.destination v
    performAll? m st.edge.destination w sts

def Constant.value : Constant → Value
  | .integer n => .int n
  | .bool b => .int b.toNat
  | .null => .address none

/-! ### Runs -/

/-- Where the storage of variables is, and what it holds. -/
structure State where
  env : Nat → Option Nat
  memory : Memory

/-- How a piece of a program ends: it goes on with a value, or the function has returned. -/
inductive Flow (α : Type) where
  | next (a : α) (σ : State)
  | returned (v : Option Value) (m : Memory)

/-- A piece of a program. -/
def Exec (α : Type) := State → Option (Flow α)

namespace Exec

variable {α β : Type}

/-- A piece that goes on if it has a result. -/
def step (f : State → Option (α × State)) : Exec α := fun σ => (f σ).map fun r => .next r.1 r.2

protected def pure (a : α) : Exec α := fun σ => some (.next a σ)

protected def bind (x : Exec α) (f : α → Exec β) : Exec β := fun σ =>
  match x σ with
  | some (.next a σ') => f a σ'
  | some (.returned v m) => some (.returned v m)
  | none => none

instance : Monad Exec where
  pure := Exec.pure
  bind := Exec.bind

def fail : Exec α := fun _ => none

def ofOption (o : Option α) : Exec α := step fun σ => o.map fun a => (a, σ)

/-- Leaves the function. -/
def ret (v : Option Value) : Exec α := fun σ => some (.returned v σ.memory)

/-- The storage of a variable. -/
def location (slot : Nat) : Exec Value :=
  step fun σ => (σ.env slot).map fun cell => (.address (some cell), σ)

/-- Gives a variable new storage. -/
def allocate (fill : Nat → Ty → Option Value) (slot : Nat) (type : Ty) : Exec Unit :=
  step fun σ =>
    let cell := σ.memory.cells.length
    some ((), ⟨fun k => if k = slot then some cell else σ.env k,
      σ.memory.allocate (fill cell type)⟩)

def store (target v : Value) : Exec Unit :=
  step fun σ => (σ.memory.store? target v).map fun m => ((), { σ with memory := m })

def convert (type : Ty) (v : Value) (steps : List Step) : Exec Value :=
  step fun σ => (Step.performAll? σ.memory type v steps).map fun w => (w, σ)

/-- Goes on as the condition says. -/
def choose (condition : Value) (first second : Exec α) : Exec α := do
  let holds ← ofOption condition.holds?
  if holds then first else second

/-- Repeats a condition and a body, for a number of turns at most. -/
def loop (condition body : Exec Value) : Nat → Exec Unit
  | 0 => fail
  | n + 1 => do
    choose (← condition) (do let _ ← body; loop condition body n) (return ())

end Exec

mutual

/-- Runs an expression and its conversions. -/
def Typed.eval (fill : Nat → Ty → Option Value) (turns : Nat) : Typed → Exec Value
  | .mk f n => do
    let v ← n.eval fill turns f.type
    Exec.convert f.type v f.chain.steps

/-- Runs an expression of the given type. -/
def Node.eval (fill : Nat → Ty → Option Value) (turns : Nat) (type : Ty) : Node → Exec Value
  | .constant c => return c.value
  | .variable slot _ => Exec.location slot
  | .addressOf e | .dereference e | .cast e => e.eval fill turns
  | .unary op e => do
    let x ← e.eval fill turns
    Exec.ofOption (op.perform? type x)
  | .binary op a b _ => do
    let x ← a.eval fill turns
    let y ← b.eval fill turns
    Exec.ofOption (op.perform? type x y)
  | .logical .and a b => do
    Exec.choose (← a.eval fill turns) (b.eval fill turns) (return .int 0)
  | .logical .or a b => do
    Exec.choose (← a.eval fill turns) (return .int 1) (b.eval fill turns)
  | .assign a b => do
    let x ← a.eval fill turns
    let y ← b.eval fill turns
    if a.type.isVoid then Exec.fail
    else do
      Exec.store x y
      return x
  | .call _ _ => Exec.fail
  | .conditional c t none => do
    Exec.choose (← c.eval fill turns) (do let _ ← t.eval fill turns; return .unit) (return .unit)
  | .conditional c t (some e) => do
    Exec.choose (← c.eval fill turns) (t.eval fill turns) (e.eval fill turns)
  | .block ss none => do
    TypedStmt.evalAll fill turns ss
    return .unit
  | .block ss (some r) => do
    TypedStmt.evalAll fill turns ss
    r.eval fill turns

/-- Runs a statement.  The storage of a variable is there before its first value is run. -/
def TypedStmt.eval (fill : Nat → Ty → Option Value) (turns : Nat) : TypedStmt → Exec Unit
  | .expr e => do
    let _ ← e.eval fill turns
  | .define slot _ type none => Exec.allocate fill slot type
  | .define slot _ type (some e) => do
    Exec.allocate fill slot type
    let v ← e.eval fill turns
    Exec.store (← Exec.location slot) v
  | .ret none => Exec.ret none
  | .ret (some e) => do
    let v ← e.eval fill turns
    Exec.ret (some v)
  | .loop c body => Exec.loop (c.eval fill turns) (body.eval fill turns) turns

/-- Runs statements one after the other. -/
def TypedStmt.evalAll (fill : Nat → Ty → Option Value) (turns : Nat) : List TypedStmt → Exec Unit
  | [] => return ()
  | s :: ss => do
    s.eval fill turns
    TypedStmt.evalAll fill turns ss

end

namespace Function

/-- The state a function starts in: its parameters hold the arguments, in new storage. -/
def start (f : Function) (m : Memory) (arguments : List Value) : State where
  env slot := (f.arguments.findIdx? (·.slot = slot)).map (m.cells.length + ·)
  memory := { m with cells := m.cells ++ arguments.map some }

/-- Runs a function: what it gives back, if it gives anything, and the memory behind it.  `fill`
says what storage holds that nothing was stored to yet. -/
def eval (fill : Nat → Ty → Option Value) (turns : Nat) (f : Function) (m : Memory)
    (arguments : List Value) : Option (Option Value × Memory) :=
  (f.body.eval fill turns (f.start m arguments)).map fun
    | .next v σ => (if f.result.isVoid then none else some v, σ.memory)
    | .returned v m => (if f.result.isVoid then none else v, m)

end Function

/-! ### Blocks that end in `return` -/

namespace Exec

variable {α β : Type} {x : Exec α} {f : α → Exec β} {σ : State}

/-- What goes on behind two pieces goes on behind both of them. -/
theorem bind_next {b : β} (h : (x >>= f) σ = some (.next b σ')) :
    ∃ a σ₁, x σ = some (.next a σ₁) ∧ f a σ₁ = some (.next b σ') := by
  have h : x.bind f σ = some (.next b σ') := h
  unfold Exec.bind at h
  split at h
  · next a σ₁ hx => exact ⟨a, σ₁, hx, h⟩
  · cases h
  · cases h

end Exec

theorem TypedStmt.not_next_of_isReturn {st : TypedStmt} (h : st.isReturn = true) :
    st.eval fill turns σ ≠ some (.next () σ') := by
  intro he
  cases st with
  | ret value =>
    cases value with
    | none => cases he
    | some e =>
      obtain ⟨v, σ₁, -, hr⟩ := Exec.bind_next he
      cases hr
  | _ => cases h

theorem TypedStmt.not_next_of_getLast {σ' : State} :
    ∀ {ss : List TypedStmt} {σ : State}, ss.getLast?.any (·.isReturn) = true →
      TypedStmt.evalAll fill turns ss σ ≠ some (.next () σ')
  | [], _, h => by cases h
  | [st], σ, h => by
    intro he
    obtain ⟨_, σ₁, hst, -⟩ := Exec.bind_next he
    exact TypedStmt.not_next_of_isReturn h hst
  | _ :: st :: ss, σ, h => by
    intro he
    obtain ⟨_, σ₁, -, hss⟩ := Exec.bind_next he
    rw [List.getLast?_cons_cons] at h
    exact TypedStmt.not_next_of_getLast h hss

/-- Nothing goes on behind a block that ends in `return`. -/
theorem Node.not_next_of_diverges {type : Ty} {n : Node} {v : Value} (h : n.diverges = true) :
    n.eval fill turns type σ ≠ some (.next v σ') := by
  intro he
  cases n with
  | block ss r =>
    cases r with
    | none =>
      obtain ⟨_, σ₁, hss, -⟩ := Exec.bind_next he
      exact TypedStmt.not_next_of_getLast h hss
    | some r => cases h
  | _ => cases h

theorem Typed.not_next_of_diverges {e : Typed} {v : Value} (h : e.diverges = true) :
    e.eval fill turns σ ≠ some (.next v σ') := by
  obtain ⟨f, n⟩ := e
  intro he
  obtain ⟨w, σ₁, hn, -⟩ := Exec.bind_next he
  exact Node.not_next_of_diverges h hn

end Gauge
