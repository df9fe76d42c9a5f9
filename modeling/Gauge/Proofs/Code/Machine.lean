import Gauge.Proofs.Code.Layout
import Gauge.Proofs.Typed.Eval

/-!
# Proofs — running code

The meaning of a sequence of events: a machine that has a register for every name, the same memory
that typed trees run on, and the code that is still ahead.  A name whose type is a reference holds
an address.  Control falls through; a jump and a branch whose condition fails go on behind the label
they name; a branch has no value until it is given one; `return` ends the run.

* `Machine.step` — one event;
* `Machine.Runs` — a run up to its `return`, which has one result (`Machine.Runs.unique`).
-/

namespace Gauge

variable {α : Type}

open Code

/-! ### Labels -/

/-- What stands behind the first place that sets a label. -/
def Code.target {α : Type} (event : α → Event) (l : Label) : List α → Option (List α)
  | [] => none
  | x :: xs => if (event x).sets? = some l then some xs else Code.target event l xs

/-- No label is set twice. -/
def Code.Unambiguous (code : List Event) : Prop := ∀ l, (labels code).count l ≤ 1

theorem Code.target_append {event : α → Event} {l : Label} {x : α} {ys : List α}
    (hx : (event x).sets? = some l) :
    ∀ {xs : List α}, (∀ y ∈ xs, (event y).sets? ≠ some l) →
      Code.target event l (xs ++ x :: ys) = some ys
  | [], _ => if_pos hx
  | y :: xs, h => by
    rw [List.cons_append, Code.target, if_neg (h y (.head _))]
    exact Code.target_append hx fun z hz => h z (.tail _ hz)

/-- A label that is set once is found wherever it is. -/
theorem Code.target_eq {event : α → Event} {l : Label} {x : α} {code ys : List α}
    (hc : Unambiguous (code.map event)) (hx : (event x).sets? = some l) (h : x :: ys <:+ code) :
    Code.target event l code = some ys := by
  obtain ⟨xs, rfl⟩ := h
  refine Code.target_append hx ?_
  intro y hy he
  have count := hc l
  rw [List.map_append, labels_append, List.count_append, List.map_cons] at count
  have first : 1 ≤ (labels (xs.map event)).count l := by
    rw [List.one_le_count_iff]
    exact List.mem_filterMap.mpr ⟨event y, List.mem_map_of_mem hy, he⟩
  have second : 1 ≤ (labels (event x :: ys.map event)).count l := by
    rw [List.one_le_count_iff]
    exact List.mem_filterMap.mpr ⟨event x, .head _, hx⟩
  omega

/-- What is behind the first event of some code and a piece of it. -/
theorem Code.suffix_behind {x : α} {xs ys code : List α} (h : x :: (xs ++ ys) <:+ code) :
    ys <:+ code := ((List.suffix_append xs ys).trans (List.suffix_cons x _)).trans h

/-! ### The machine -/

/-- The code ahead, the values of names, and the memory. -/
structure Machine where
  rest : List Event
  regs : ValueId → Option Value
  memory : Memory

/-- What one event does: the machine goes on, or the run ends. -/
inductive Reaction where
  | goes (m : Machine)
  | ends (v : Option Value) (m : Memory)

namespace Machine

/-- Gives a name a value, or none. -/
def put (m : Machine) (id : ValueId) (v : Option Value) : Machine :=
  { m with regs := fun i => if i = id then v else m.regs i }

/-- Gives a name the value of an operation, if it succeeds. -/
def result (m : Machine) (id : ValueId) (v : Option Value) : Option Reaction :=
  v.map fun v => .goes (m.put id (some v))

/-- Goes on behind a label. -/
def jump (m : Machine) (code : List Event) (l : Label) : Option Reaction :=
  (target id l code).map fun rest => .goes { m with rest := rest }

/-- Runs an event that is no longer ahead. -/
def react (fill : Nat → Ty → Option Value) (code : List Event) (m : Machine) : Event →
    Option Reaction
  | .literal id n _ => m.result id (some (.int n))
  | .null id _ => m.result id (some (.address none))
  | .allocate id type _ =>
    let cell := m.memory.cells.length
    some (.goes { m.put id (some (.address (some cell))) with
      memory := m.memory.allocate (fill cell type) })
  | .store target value => do
    let a ← m.regs target
    let v ← m.regs value
    let memory ← m.memory.store? a v
    return .goes { m with memory := memory }
  | .load id _ address => m.result id ((m.regs address).bind m.memory.load?)
  | .convert how id source sourceType type =>
    m.result id ((m.regs source).bind (how.perform? sourceType type))
  | .nonNull id source => m.result id ((m.regs source).bind Value.nonNull?)
  | .call _ _ _ => none
  | .binary id op left right _ type => m.result id do
    op.perform? type (← m.regs left) (← m.regs right)
  | .unary id op operand type => m.result id ((m.regs operand).bind (op.perform? type))
  | .branch id _ condition otherwise _ => do
    let v ← m.regs condition
    let holds ← v.holds?
    if holds then return .goes (m.put id none) else (m.put id none).jump code otherwise
  | .branchResult id value => m.result id (m.regs value)
  | .label _ => some (.goes m)
  | .jump l => m.jump code l
  | .ret none => some (.ends none m.memory)
  | .ret (some id) => (m.regs id).map fun v => .ends (some v) m.memory

/-- One step; nothing happens behind the last event. -/
def step (fill : Nat → Ty → Option Value) (code : List Event) (m : Machine) : Option Reaction :=
  match m.rest with
  | [] => none
  | e :: rest => { m with rest := rest }.react fill code e

/-- The machine runs until a `return` that gives `v` back, with the given memory behind it. -/
inductive Runs (fill : Nat → Ty → Option Value) (code : List Event) :
    Machine → Option Value → Memory → Prop
  | ends {m : Machine} {v : Option Value} {memory : Memory}
      (h : m.step fill code = some (.ends v memory)) : Runs fill code m v memory
  | goes {m m' : Machine} {v : Option Value} {memory : Memory}
      (h : m.step fill code = some (.goes m')) (rest : Runs fill code m' v memory) :
      Runs fill code m v memory

/-- A run has one result. -/
theorem Runs.unique {fill : Nat → Ty → Option Value} {code : List Event} {m : Machine}
    {v w : Option Value} {memory memory' : Memory} (h : Runs fill code m v memory)
    (h' : Runs fill code m w memory') : w = v ∧ memory' = memory := by
  induction h with
  | ends h =>
    cases h' with
    | ends h' =>
      cases h.symm.trans h'
      exact ⟨rfl, rfl⟩
    | goes h' _ => cases h.symm.trans h'
  | goes h _ ih =>
    cases h' with
    | ends h' => cases h.symm.trans h'
    | goes h' rest' =>
      cases h.symm.trans h'
      exact ih rest'

end Machine

/-- The machine at the start of a function. -/
def Function.machine (f : Function) (m : Memory) (arguments : List Value) : Machine where
  rest := f.emit.events
  regs
    | .slot k => ((f.start m arguments).env k).map fun cell => .address (some cell)
    | .temp _ => none
  memory := (f.start m arguments).memory

end Gauge
