import Gauge.Proofs.Code.Machine
import Mathlib.Data.List.Forall2

/-!
# Proofs — what operands stand for

Events name the values that they read; which expressions these are is known to the tree only.
`Typed.operandTypes` gives, for each event of the code of a tree, the types of the expressions that
its operands stand for.  `Typed.noted` is the code together with these types, with one equation for
each form of expression and statement.
-/

namespace Gauge

/-- The values that an event reads, in order. -/
def Event.operands : Event → List ValueId
  | .store target value => [target, value]
  | .load _ _ address => [address]
  | .convert _ _ source _ _ | .nonNull _ source => [source]
  | .call _ _ arguments => arguments
  | .binary _ _ left right _ _ => [left, right]
  | .unary _ _ operand _ => [operand]
  | .branch _ _ condition _ _ => [condition]
  | .branchResult _ value => [value]
  | .ret value => value.toList
  | .literal _ _ _ | .null _ _ | .allocate _ _ _ | .label _ | .jump _ => []

/-- An event and the types of the expressions that its operands stand for. -/
abbrev Noted := Event × List Ty

/-! ### The types of operands -/

namespace Code

/-- The operands around the arms of a branch. -/
def branchingTypes (condition : Ty) (first second : List (List Ty)) : List (List Ty) :=
  [condition] :: (first ++ [] :: [] :: (second ++ [[], []]))

/-- The operand that gives a branch the value of an arm, where the arm has one. -/
def giveTypes (has : Bool) (type : Ty) : List (List Ty) := if has then [[type]] else []

/-- The operand of a return. -/
def returnTypes (type : Ty) : List Ty := if type.isVoid then [] else [type]

end Code

open Code

/-- The operands of conversions of a value of the given type. -/
def Step.operandTypes (type : Ty) : List Step → List (List Ty)
  | [] => []
  | s :: ss =>
    if s.edge.action = .reinterpret then Step.operandTypes s.edge.destination ss
    else [type] :: Step.operandTypes s.edge.destination ss

mutual

/-- The types of the operands of each event of an expression. -/
def Typed.operandTypes : Typed → List (List Ty)
  | .mk f n => n.operandTypes f.type ++ Step.operandTypes f.type f.chain.steps

def Node.operandTypes (type : Ty) : Node → List (List Ty)
  | .constant _ => [[]]
  | .variable _ _ => []
  | .addressOf e | .dereference e | .cast e => e.operandTypes
  | .unary _ e => e.operandTypes ++ [[e.type]]
  | .binary _ x y _ | .assign x y => x.operandTypes ++ (y.operandTypes ++ [[x.type, y.type]])
  | .logical .and x y =>
    x.operandTypes ++ branchingTypes x.type (y.operandTypes ++ [[y.type]]) [[], [type]]
  | .logical .or x y =>
    x.operandTypes ++ branchingTypes x.type [[], [type]] (y.operandTypes ++ [[y.type]])
  | .call _ es => Typed.operandTypesAll es ++ [es.map Typed.type]
  | .conditional c t none =>
    c.operandTypes ++ branchingTypes c.type
      (t.operandTypes ++ giveTypes (!type.isVoid && t.producesValue) t.type) []
  | .conditional c t (some e) =>
    c.operandTypes ++ branchingTypes c.type
      (t.operandTypes ++ giveTypes (!type.isVoid && t.producesValue) t.type)
      (e.operandTypes ++ giveTypes (!type.isVoid && e.producesValue) e.type)
  | .block ss none => TypedStmt.operandTypesAll ss
  | .block ss (some r) => TypedStmt.operandTypesAll ss ++ r.operandTypes

def Typed.operandTypesAll : List Typed → List (List Ty)
  | [] => []
  | e :: es => e.operandTypes ++ Typed.operandTypesAll es

def TypedStmt.operandTypes : TypedStmt → List (List Ty)
  | .expr e => e.operandTypes
  | .define _ _ _ none => [[]]
  | .define _ _ t (some e) => [] :: (e.operandTypes ++ [[t.asReference, e.type]])
  | .ret none => [[]]
  | .ret (some e) => e.operandTypes ++ [returnTypes e.type]
  | .loop c body => [] :: (c.operandTypes ++ [c.type] :: (body.operandTypes ++ [[], []]))

def TypedStmt.operandTypesAll : List TypedStmt → List (List Ty)
  | [] => []
  | s :: ss => s.operandTypes ++ TypedStmt.operandTypesAll ss

end

/-- The types of the operands of each event of a function. -/
def Function.operandTypes (f : Function) : List (List Ty) :=
  f.body.operandTypes ++ if f.body.diverges then [] else [returnTypes f.body.type]

/-! ### Every event has its operands -/

/-- There is a type for each operand of the event; in a function with the given result a return has
an operand if the result is worth something. -/
structure Event.Fits (result : Ty) (e : Event) (types : List Ty) : Prop where
  operands : types.length = e.operands.length
  returns : ∀ v, e = .ret v → v.isSome = !result.isVoid

/-- The types of a binary operator are those of one of its overloads. -/
def Event.Overloaded : Event → Prop
  | .binary _ _ _ _ operandType type =>
    ∃ o ∈ Builtin.overloads, operandType ∈ o.parameters ∧ type = o.result
  | _ => True

/-- The events of some code and the types of their operands belong together. -/
abbrev Code.Fit (result : Ty) (code : List Event) (types : List (List Ty)) : Prop :=
  List.Forall₂ (fun e types => e.Fits result types ∧ e.Overloaded) code types

namespace Code.Fit

variable {result t : Ty} {xs ys : List Event} {ts us : List (List Ty)} {e : Event}

theorem append (hx : Fit result xs ts) (hy : Fit result ys us) :
    Fit result (xs ++ ys) (ts ++ us) := List.rel_append hx hy

/-- An event in front of some code that is no return. -/
theorem cons {types : List Ty} (h : types.length = e.operands.length) (hr : ∀ v, e ≠ .ret v)
    (ho : e.Overloaded) (hx : Fit result xs ts) : Fit result (e :: xs) (types :: ts) :=
  List.Forall₂.cons ⟨⟨h, fun v hv => absurd hv (hr v)⟩, ho⟩ hx

theorem event {types : List Ty} (h : types.length = e.operands.length) (hr : ∀ v, e ≠ .ret v)
    (ho : e.Overloaded) : Fit result [e] [types] := cons h hr ho .nil

theorem give {has : Bool} {id value : ValueId} :
    Fit result (Code.give has id value) (giveTypes has t) := by
  cases has with
  | true => exact event rfl nofun trivial
  | false => exact .nil

theorem known {n : Nat} {id id' : ValueId} {type : Ty} :
    Fit result [.literal id n type, .branchResult id' id] [[], [t]] :=
  cons rfl nofun trivial (event rfl nofun trivial)

theorem branching {id condition : ValueId} {type : Ty} {l : Nat} (hx : Fit result xs ts)
    (hy : Fit result ys us) :
    Fit result (Code.branching id type condition l xs ys) (branchingTypes t ts us) := by
  have last : Fit result [.jump ⟨l + 1⟩, .label ⟨l + 1⟩] [[], []] :=
    cons rfl nofun trivial (event rfl nofun trivial)
  exact cons rfl nofun trivial
    (hx.append (cons rfl nofun trivial (cons rfl nofun trivial (hy.append last))))

/-- A return of an expression that is worth something exactly if the result is. -/
theorem ret {value : ValueId} (h : t.isVoid = result.isVoid) :
    Fit result [.ret (if t.isVoid then none else some value)] [returnTypes t] := by
  refine List.Forall₂.cons ⟨⟨?_, ?_⟩, trivial⟩ .nil
  · unfold returnTypes
    cases t.isVoid with
    | true | false => rfl
  · intro v hv
    cases hv
    rw [← h]
    cases t.isVoid with
    | true | false => rfl

end Code.Fit

variable {result : Ty} {st : Structs}

/-- Each step converts what the one before it gave. -/
theorem Step.emitAll_fits : ∀ {steps : List Step} {type : Ty} {value : ValueId}
    {s : Supply}, Fit result (Step.emitAll type value steps s).events (Step.operandTypes type steps)
  | [], type, value, s => .nil
  | st :: sts, type, value, s => by
    rw [Step.operandTypes]
    cases he : st.edge.action.event? type st.edge.destination (.temp s.temps) value with
    | some e =>
      rw [Step.emitAll_some he]
      cases ha : st.edge.action with
      | reinterpret =>
        rw [ha] at he
        cases he
      | _ =>
        rw [ha] at he
        cases he
        exact .cons rfl nofun trivial Step.emitAll_fits
    | none =>
      have ha : st.edge.action = .reinterpret := by
        cases ha : st.edge.action with
        | reinterpret => rfl
        | _ =>
          rw [ha] at he
          cases he
      rw [Step.emitAll_none he, if_pos ha]
      exact Step.emitAll_fits

theorem Typed.emitAll_length : ∀ (es : List Typed) (s : Supply),
    (Typed.emitAll es s).value.length = es.length
  | [], s => rfl
  | e :: es, s => by
    rw [Typed.emitAll_cons, List.length_cons, List.length_cons, Typed.emitAll_length es]

mutual

/-- By induction on the tree. -/
theorem Typed.emit_fits : ∀ (e : Typed) (s : Supply),
    e.WellTyped st result → Fit result (e.emit s).events e.operandTypes
  | .mk f n, s, h => by
    rw [Typed.emit_mk]
    exact (Node.emit_fits n f.type s h.2).append Step.emitAll_fits

/-- By induction on the tree, as the code is made. -/
theorem Node.emit_fits : ∀ (n : Node) (type : Ty) (s : Supply),
    n.WellTyped st result type → Fit result (n.emit type s).events (n.operandTypes type)
  | .constant (.integer _), type, s, _ | .constant (.bool _), type, s, _
  | .constant .null, type, s, _ => .event rfl nofun trivial
  | .variable _ _, type, s, _ => .nil
  | .addressOf e, type, s, h | .dereference e, type, s, h | .cast e, type, s, h =>
    Typed.emit_fits e s h.1
  | .unary op e, type, s, h => (Typed.emit_fits e s h.1).append (.event rfl nofun trivial)
  | .binary op x y t, type, s, h => by
    obtain ⟨hx, hy, o, ho, -, -, ht, htype⟩ := h
    exact (Typed.emit_fits x s hx).append
      ((Typed.emit_fits y _ hy).append (.event rfl nofun ⟨o, ho, ht, htype⟩))
  | .logical .and x y, type, s, h => by
    rw [Node.emit_and]
    exact (Typed.emit_fits x s h.1).append
      (.branching ((Typed.emit_fits y _ h.2.1).append (.event rfl nofun trivial)) .known)
  | .logical .or x y, type, s, h => by
    rw [Node.emit_or]
    exact (Typed.emit_fits x s h.1).append
      (.branching .known ((Typed.emit_fits y _ h.2.1).append (.event rfl nofun trivial)))
  | .assign x y, type, s, h =>
    (Typed.emit_fits x s h.1).append
      ((Typed.emit_fits y _ h.2.1).append (.event rfl nofun trivial))
  | .call c es, type, s, h => by
    rw [Node.emit_call]
    refine (Typed.emitAll_fits es s h.1).append (.event ?_ nofun trivial)
    rw [List.length_map]
    exact (Typed.emitAll_length es s).symm
  | .conditional c t none, type, s, h => by
    rw [Node.emit_conditional_none]
    exact (Typed.emit_fits c s h.1).append
      (.branching ((Typed.emit_fits t _ h.2.1).append .give) .nil)
  | .conditional c t (some e), type, s, h => by
    rw [Node.emit_conditional_some]
    exact (Typed.emit_fits c s h.1).append
      (.branching ((Typed.emit_fits t _ h.2.1).append .give)
        ((Typed.emit_fits e _ h.2.2.1).append .give))
  | .block ss none, type, s, h => by
    rw [Node.emit_block_none]
    exact TypedStmt.emitAll_fits ss s h.1
  | .block ss (some r), type, s, h =>
    (TypedStmt.emitAll_fits ss s h.1).append (Typed.emit_fits r _ h.2.1)

theorem Typed.emitAll_fits : ∀ (es : List Typed) (s : Supply),
    Typed.WellTypedAll st result es → Fit result (Typed.emitAll es s).events
      (Typed.operandTypesAll es)
  | [], s, _ => .nil
  | e :: es, s, h => by
    rw [Typed.emitAll_cons]
    exact (Typed.emit_fits e s h.1).append (Typed.emitAll_fits es _ h.2)

/-- A statement reads values of the types it asks for. -/
theorem TypedStmt.emit_fits : ∀ (t : TypedStmt) (s : Supply),
    t.WellTyped st result → Fit result (t.emit s).events t.operandTypes
  | .expr e, s, h => by
    rw [TypedStmt.emit_expr]
    exact Typed.emit_fits e s h
  | .define k name t none, s, _ => .event rfl nofun trivial
  | .define k name t (some e), s, h =>
    .cons rfl nofun trivial ((Typed.emit_fits e s h.1).append (.event rfl nofun trivial))
  | .ret none, s, h => by
    have void : result.isVoid = true := h
    refine List.Forall₂.cons ⟨⟨rfl, ?_⟩, trivial⟩ .nil
    intro v hv
    cases hv
    rw [void]
    rfl
  | .ret (some e), s, h => by
    refine (Typed.emit_fits e s h.1).append (.ret ?_)
    cases hr : result.isVoid with
    | true => exact h.2.2 hr
    | false => rw [h.2.1 hr, hr]
  | .loop c body, s, h => by
    rw [TypedStmt.emit_loop]
    exact .cons rfl nofun trivial ((Typed.emit_fits c _ h.1).append
      (.cons rfl nofun trivial ((Typed.emit_fits body _ h.2.1).append
        (.cons rfl nofun trivial (.event rfl nofun trivial)))))

theorem TypedStmt.emitAll_fits : ∀ (ss : List TypedStmt) (s : Supply),
    TypedStmt.WellTypedAll st result ss →
    Fit result (TypedStmt.emitAll ss s).events (TypedStmt.operandTypesAll ss)
  | [], _, _ => .nil
  | t :: ss, s, h => (TypedStmt.emit_fits t s h.1).append (TypedStmt.emitAll_fits ss _ h.2)

end

/-! ### Code with the types of its operands -/

/-- The code around the arms of a branch. -/
def Code.notedBranching (id : ValueId) (type : Ty) (condition : ValueId) (conditionType : Ty)
    (l : Nat)
    (first second : List Noted) : List Noted :=
  (.branch id type condition ⟨l⟩ ⟨l + 1⟩, [conditionType]) ::
    (first ++ (.jump ⟨l + 1⟩, []) :: (.label ⟨l⟩, []) ::
      (second ++ [(.jump ⟨l + 1⟩, []), (.label ⟨l + 1⟩, [])]))

namespace Code.Fit

variable {result t : Ty} {xs ys : List Event} {ts us : List (List Ty)}

theorem zip_append (h : Fit result xs ts) : (xs ++ ys).zip (ts ++ us) = xs.zip ts ++ ys.zip us :=
  List.zip_append h.length_eq

theorem zip_branching {id condition : ValueId} {type : Ty} {l : Nat} (hx : Fit result xs ts)
    (hy : Fit result ys us) :
    (Code.branching id type condition l xs ys).zip (branchingTypes t ts us) =
      notedBranching id type condition t l (xs.zip ts) (ys.zip us) := by
  simp only [Code.branching, branchingTypes, notedBranching, List.zip_cons_cons, hx.zip_append,
    hy.zip_append, List.zip_nil_right]

end Code.Fit

/-- The code of an expression with the types of its operands. -/
def Typed.noted (e : Typed) (s : Supply) : List Noted := (e.emit s).events.zip e.operandTypes

def Node.noted (type : Ty) (n : Node) (s : Supply) : List Noted :=
  (n.emit type s).events.zip (n.operandTypes type)

def Typed.notedAll (es : List Typed) (s : Supply) : List Noted :=
  (Typed.emitAll es s).events.zip (Typed.operandTypesAll es)

def TypedStmt.noted (t : TypedStmt) (s : Supply) : List Noted :=
  (t.emit s).events.zip t.operandTypes

def TypedStmt.notedAll (ss : List TypedStmt) (s : Supply) : List Noted :=
  (TypedStmt.emitAll ss s).events.zip (TypedStmt.operandTypesAll ss)

/-- The code of a function with the types of its operands. -/
def Function.noted (f : Function) : List Noted := f.emit.events.zip f.operandTypes

section Noted

variable {st : Structs} {result type : Ty} {s : Supply} {x y z : Typed} {ss : List TypedStmt}

theorem Typed.noted_mk {f : Facts} {n : Node} (h : n.WellTyped st result f.type) :
    (Typed.mk f n).noted s =
      let v := n.emit f.type s
      n.noted f.type s ++
        (Step.emitAll f.type v.value f.chain.steps v.supply).events.zip
          (Step.operandTypes f.type f.chain.steps) := by
  simp only [Typed.noted, Typed.emit_mk, Typed.operandTypes,
    (Node.emit_fits n f.type s h).zip_append]
  rfl

theorem Node.noted_unary {op : UnaryOp} (hx : x.WellTyped st result) :
    (Node.unary op x).noted type s =
      let r := x.emit s
      x.noted s ++ [(.unary (.temp r.supply.temps) op r.value type, [x.type])] := by
  simp only [Node.noted, Node.emit_unary, Node.operandTypes, (Typed.emit_fits x s hx).zip_append]
  rfl

theorem Node.noted_binary {op : BinaryOp} {t : Ty} (hx : x.WellTyped st result)
    (hy : y.WellTyped st result) :
    (Node.binary op x y t).noted type s =
      let l := x.emit s
      let r := y.emit l.supply
      x.noted s ++ (y.noted l.supply ++
        [(.binary (.temp r.supply.temps) op l.value r.value t type, [x.type, y.type])]) := by
  simp only [Node.noted, Node.emit_binary, Node.operandTypes, (Typed.emit_fits x s hx).zip_append,
    (Typed.emit_fits y _ hy).zip_append]
  rfl

/-- The right side of `&&` is an arm. -/
theorem Node.noted_and (hx : x.WellTyped st result) (hy : y.WellTyped st result) :
    (Node.logical .and x y).noted type s =
      let c := x.emit s
      let id := ValueId.temp c.supply.temps
      let r := y.emit (forArms c.supply)
      let known := ValueId.temp r.supply.temps
      x.noted s ++ notedBranching id type c.value x.type c.supply.labels
        (y.noted (forArms c.supply) ++ [(.branchResult id r.value, [y.type])])
        [(.literal known 0 type, []), (.branchResult id known, [type])] := by
  have fits : ∀ id value, Fit result ((y.emit (forArms (x.emit s).supply)).events ++
      [.branchResult id value]) (y.operandTypes ++ [[y.type]]) := fun id value =>
    (Typed.emit_fits y _ hy).append (.event rfl nofun trivial)
  simp only [Node.noted, Node.emit_and, Node.operandTypes, (Typed.emit_fits x s hx).zip_append,
    (fits _ _).zip_branching .known, (Typed.emit_fits y _ hy).zip_append]
  rfl

/-- So is that of `||`. -/
theorem Node.noted_or (hx : x.WellTyped st result) (hy : y.WellTyped st result) :
    (Node.logical .or x y).noted type s =
      let c := x.emit s
      let id := ValueId.temp c.supply.temps
      let known := ValueId.temp (c.supply.temps + 1)
      let rest : Supply := ⟨c.supply.temps + 2, c.supply.labels + 2⟩
      x.noted s ++ notedBranching id type c.value x.type c.supply.labels
        [(.literal known 1 type, []), (.branchResult id known, [type])]
        (y.noted rest ++ [(.branchResult id (y.emit rest).value, [y.type])]) := by
  have fits : ∀ id value, Fit result ((y.emit ⟨(x.emit s).supply.temps + 2,
      (x.emit s).supply.labels + 2⟩).events ++ [.branchResult id value])
      (y.operandTypes ++ [[y.type]]) := fun id value =>
    (Typed.emit_fits y _ hy).append (.event rfl nofun trivial)
  simp only [Node.noted, Node.emit_or, Node.operandTypes, (Typed.emit_fits x s hx).zip_append,
    Fit.zip_branching .known (fits _ _), (Typed.emit_fits y _ hy).zip_append]
  rfl

theorem Node.noted_assign (hx : x.WellTyped st result) (hy : y.WellTyped st result) :
    (Node.assign x y).noted type s =
      let l := x.emit s
      x.noted s ++ (y.noted l.supply ++
        [(.store l.value (y.emit l.supply).value, [x.type, y.type])]) := by
  simp only [Node.noted, Node.emit_assign, Node.operandTypes, (Typed.emit_fits x s hx).zip_append,
    (Typed.emit_fits y _ hy).zip_append]
  rfl

theorem Node.noted_call {c : Callee} {es : List Typed} (h : Typed.WellTypedAll st result es) :
    (Node.call c es).noted type s =
      let r := Typed.emitAll es s
      Typed.notedAll es s ++ [(.call (.temp r.supply.temps) c r.value, es.map Typed.type)] := by
  simp only [Node.noted, Node.emit_call, Node.operandTypes, (Typed.emitAll_fits es s h).zip_append]
  rfl

/-- An arm that gives nothing. -/
theorem Node.noted_conditional_none (hx : x.WellTyped st result) (hy : y.WellTyped st result) :
    (Node.conditional x y none).noted type s =
      let c := x.emit s
      let id := ValueId.temp c.supply.temps
      let has := !type.isVoid && y.producesValue
      x.noted s ++ notedBranching id type c.value x.type c.supply.labels
        (y.noted (forArms c.supply) ++
          (give has id (y.emit (forArms c.supply)).value).zip (giveTypes has y.type)) [] := by
  have fits : ∀ has id value, Fit result ((y.emit (forArms (x.emit s).supply)).events ++
      give has id value) (y.operandTypes ++ giveTypes has y.type) := fun has id value =>
    (Typed.emit_fits y _ hy).append .give
  simp only [Node.noted, Node.emit_conditional_none, Node.operandTypes,
    (Typed.emit_fits x s hx).zip_append, (fits _ _ _).zip_branching .nil,
    (Typed.emit_fits y _ hy).zip_append]
  rfl

/-- Two arms that give a value. -/
theorem Node.noted_conditional_some (hx : x.WellTyped st result) (hy : y.WellTyped st result)
    (hz : z.WellTyped st result) :
    (Node.conditional x y (some z)).noted type s =
      let c := x.emit s
      let id := ValueId.temp c.supply.temps
      let first := y.emit (forArms c.supply)
      let has := fun arm : Typed => !type.isVoid && arm.producesValue
      x.noted s ++ notedBranching id type c.value x.type c.supply.labels
        (y.noted (forArms c.supply) ++ (give (has y) id first.value).zip (giveTypes (has y) y.type))
        (z.noted first.supply ++
          (give (has z) id (z.emit first.supply).value).zip (giveTypes (has z) z.type)) := by
  have fits : ∀ (e : Typed) (s : Supply), e.WellTyped st result → ∀ has id value,
      Fit result ((e.emit s).events ++ give has id value)
      (e.operandTypes ++ giveTypes has e.type) :=
    fun e s h has id value => (Typed.emit_fits e s h).append .give
  simp only [Node.noted, Node.emit_conditional_some, Node.operandTypes,
    (Typed.emit_fits x s hx).zip_append, (fits y _ hy _ _ _).zip_branching (fits z _ hz _ _ _),
    (Typed.emit_fits y _ hy).zip_append, (Typed.emit_fits z _ hz).zip_append]
  rfl

theorem Node.noted_block_none : (Node.block ss none).noted type s = TypedStmt.notedAll ss s := by
  rw [Node.noted, Node.emit_block_none, Node.operandTypes]
  rfl

theorem Node.noted_block_some (h : TypedStmt.WellTypedAll st result ss) :
    (Node.block ss (some x)).noted type s =
      TypedStmt.notedAll ss s ++ x.noted (TypedStmt.emitAll ss s).supply := by
  simp only [Node.noted, Node.emit_block_some, Node.operandTypes,
    (TypedStmt.emitAll_fits ss s h).zip_append]
  rfl

theorem Typed.notedAll_cons {es : List Typed} (h : x.WellTyped st result) :
    Typed.notedAll (x :: es) s = x.noted s ++ Typed.notedAll es (x.emit s).supply := by
  simp only [Typed.notedAll, Typed.emitAll_cons, Typed.operandTypesAll,
    (Typed.emit_fits x s h).zip_append]
  rfl

theorem TypedStmt.noted_define {k : Nat} {name : String} {t : Ty} (h : x.WellTyped st result) :
    (TypedStmt.define k name t (some x)).noted s =
      (.allocate (.slot k) t name, []) ::
        (x.noted s ++ [(.store (.slot k) (x.emit s).value, [t.asReference, x.type])]) := by
  simp only [TypedStmt.noted, TypedStmt.emit_define, TypedStmt.operandTypes, List.zip_cons_cons,
    (Typed.emit_fits x s h).zip_append]
  rfl

theorem TypedStmt.noted_ret (h : x.WellTyped st result) :
    (TypedStmt.ret (some x)).noted s =
      x.noted s ++ [(.ret (if x.type.isVoid then none else some (x.emit s).value),
        returnTypes x.type)] := by
  simp only [TypedStmt.noted, TypedStmt.emit_ret, TypedStmt.operandTypes,
    (Typed.emit_fits x s h).zip_append]
  rfl

/-- The condition of a loop, and its body. -/
theorem TypedStmt.noted_loop (hx : x.WellTyped st result) (hy : y.WellTyped st result) :
    (TypedStmt.loop x y).noted s =
      let inner : Supply := ⟨s.temps, s.labels + 2⟩
      let r := x.emit inner
      let body : Supply := ⟨r.supply.temps + 1, r.supply.labels⟩
      (.label ⟨s.labels⟩, []) :: (x.noted inner ++
        (.branch (.temp r.supply.temps) y.type r.value ⟨s.labels + 1⟩ ⟨s.labels + 1⟩, [x.type]) ::
          (y.noted body ++ [(.jump ⟨s.labels⟩, []), (.label ⟨s.labels + 1⟩, [])])) := by
  simp only [TypedStmt.noted, TypedStmt.emit_loop, TypedStmt.operandTypes, List.zip_cons_cons,
    (Typed.emit_fits x _ hx).zip_append, (Typed.emit_fits y _ hy).zip_append]
  rfl

theorem TypedStmt.notedAll_cons {t : TypedStmt} (h : t.WellTyped st result) :
    TypedStmt.notedAll (t :: ss) s = t.noted s ++ TypedStmt.notedAll ss (t.emit s).supply := by
  simp only [TypedStmt.notedAll, TypedStmt.emitAll_cons, TypedStmt.operandTypesAll,
    (TypedStmt.emit_fits t s h).zip_append]
  rfl

end Noted

namespace Function

variable {st : Structs} {f : Function}

theorem emit_fits (h : f.WellTyped st) : Fit f.result f.emit.events f.operandTypes := by
  rw [emit_events h, operandTypes]
  refine (Typed.emit_fits f.body _ h.body).append ?_
  split
  · exact .nil
  · rw [← h.type]
    exact .ret rfl

theorem noted_eq (h : f.WellTyped st) :
    f.noted = f.body.noted ⟨0, 0⟩ ++ if f.body.diverges then [] else
      [(.ret (if f.result.isVoid then none else some (f.body.emit ⟨0, 0⟩).value),
        returnTypes f.body.type)] := by
  rw [noted, emit_events h, operandTypes, (Typed.emit_fits f.body _ h.body).zip_append]
  cases f.body.diverges with
  | true | false => rfl

end Function

end Gauge
