import Gauge.Proofs.Typed.Mirror
import Gauge.Proofs.Typed.Rules

/-!
# Proofs — what an expression spends

The weight of a statement is checked each time that a conversion is attached, against a sum that is
handed through all steps.  `Typed.spending` reads this sum off the tree.  A step that is `Metered`
spends what its result holds more than its parts, so the sum never falls, and the step gives the
same under every limit that its end stays within.

The second scope of a metered step is one with a higher limit for statements (`Scope.raised`).  The
statements in a block have that limit for their own, so they are covered by the same induction
(`Expr.natural_metered`, `Stmt.check_settled`).
-/

namespace Gauge

/-! ### Weights in order -/

namespace Weight

variable {a b c : Weight}

theorem le_refl (a : Weight) : a.le a = true := le_iff_rank.mpr le_rfl

theorem le_trans (hab : a.le b = true) (hbc : b.le c = true) : a.le c = true :=
  le_iff_rank.mpr (Nat.le_trans (le_iff_rank.mp hab) (le_iff_rank.mp hbc))

theorem le_add (a w : Weight) : a.le (a + w) = true := le_iff_rank.mpr (rank_le_add a w)

theorem zero_le (a : Weight) : zero.le a = true := by
  rw [le_iff_rank, rank_zero]
  exact Nat.zero_le _

theorem le_largest (a : Weight) : a.le largest = true := by
  have hl := a.length.toNat_lt
  have hc := a.cost.toNat_lt
  have top : (4294967295 : UInt32).toNat = 4294967295 := rfl
  rw [le_iff_rank, rank, rank, largest, top, UInt32.size]
  omega

end Weight

/-! ### The weight of a tree -/

mutual

/-- The weight of all conversions in an expression.  Those in the statements of a block do not
count. -/
@[simp] def Typed.spending : Typed → Weight
  | .mk f n => f.chain.weight + n.spending

/-- The weight of the conversions below a node. -/
@[simp] def Node.spending : Node → Weight
  | .constant _ | .variable _ _ | .block _ none => .zero
  | .unary _ e | .addressOf e | .dereference e | .cast e | .block _ (some e) => e.spending
  | .binary _ a b _ | .logical _ a b | .assign a b => a.spending + b.spending
  | .call _ es => Typed.spendingAll es
  | .conditional c t none => c.spending + t.spending
  | .conditional c t (some e) => c.spending + t.spending + e.spending

@[simp] def Typed.spendingAll : List Typed → Weight
  | [] => .zero
  | e :: es => e.spending + Typed.spendingAll es

end

/-- The weight of all conversions in a statement. -/
@[simp] def TypedStmt.spending : TypedStmt → Weight
  | .define _ _ _ none | .ret none => .zero
  | .expr e | .define _ _ _ (some e) | .ret (some e) => e.spending
  | .loop c b => c.spending + b.spending

namespace Typed

theorem spending_plain (n : Node) (t : Ty) (r : Range) (span : Span) :
    (plain n t r span).spending = n.spending := by
  rw [plain, spending]
  exact Weight.zero_add _

theorem spending_attach (e : Typed) (c : Chain) :
    (e.attach c).spending = e.spending + c.weight := by
  obtain ⟨f, n⟩ := e
  rw [attach, spending, spending]
  show f.chain.weight + c.weight + n.spending = f.chain.weight + n.spending + c.weight
  rw [Weight.add_assoc, Weight.add_comm c.weight, Weight.add_assoc]

theorem Adopted.spending_eq {scope : Scope} {target : Ty} {e e' : Typed}
    (h : Adopted scope target e e') :
    e'.spending = e.spending := by
  obtain ⟨f, n⟩ := e
  cases h <;> rw [spending, spending]

end Typed

/-! ### Steps under a limit -/

namespace Check

/-- A step that may be run under any limit, with a counterpart `y`.  It starts from parts that weigh
`before`, and what it spends is what its result weighs more than they do.  Sums that have stopped at
the largest number cannot be told apart, so this speaks of what is added and not of a difference. 
What it gives does not depend on the limit, as long as what is spent in the end stays within it. -/
structure Metered {α β : Type} (x : Weight → Check α) (y : Weight → Check β) (f : α → β)
    (before : Weight) (after : α → Weight) : Prop where
  spends : ∀ {limit p a q}, (x limit).Gives p a q →
    ∃ more, q.spent = p.spent + more ∧ before + more = after a
  within : ∀ {limit p a q}, (x limit).Gives p a q → p.spent.le limit = true →
    q.spent.le limit = true
  moves : ∀ {limit limit' p a q}, (x limit).Gives p a q → q.spent.le limit' = true →
    (y limit').Gives p (f a) q

namespace Metered

variable {α α' β β' : Type} {x : Weight → Check α} {y : Weight → Check α'} {f : α → α'}
  {k : Weight → α → Check β} {k' : Weight → α' → Check β'} {g : β → β'} {u : Weight}
  {w : α → Weight}
  {z : β → Weight}

theorem spent_le (h : Metered x y f u w) {limit : Weight} {p q : Progress} {a : α}
    (ha : (x limit).Gives p a q) : p.spent.le q.spent = true := by
  obtain ⟨more, spent, -⟩ := h.spends ha
  rw [spent]
  exact Weight.le_add _ _

/-- One step after another.  The sum in between is at most the sum in the end, so a limit that holds
at the end holds there. -/
theorem bind (hx : Metered x y f u w)
    (hk : ∀ a, (∃ limit p q, (x limit).Gives p a q) →
      Metered (fun limit => k limit a) (fun limit => k' limit (f a)) g (w a) z) :
    Metered (fun limit => x limit >>= k limit) (fun limit => y limit >>= k' limit) g u z where
  spends := by
    intro limit p b q hb
    obtain ⟨a, r, ha, hb⟩ := gives_bind.mp hb
    obtain ⟨more, hr, hmore⟩ := hx.spends ha
    obtain ⟨rest, hq, hrest⟩ := (hk a ⟨limit, p, r, ha⟩).spends hb
    refine ⟨more + rest, ?_, ?_⟩
    · rw [hq, hr, Weight.add_assoc]
    · rw [← Weight.add_assoc, hmore, hrest]
  within := by
    intro limit p b q hb hp
    obtain ⟨a, r, ha, hb⟩ := gives_bind.mp hb
    exact (hk a ⟨limit, p, r, ha⟩).within hb (hx.within ha hp)
  moves := by
    intro limit limit' p b q hb hq
    obtain ⟨a, r, ha, hb⟩ := gives_bind.mp hb
    have hk := hk a ⟨limit, p, r, ha⟩
    have hr := Weight.le_trans (hk.spent_le hb) hq
    exact gives_bind.mpr ⟨f a, r, hx.moves ha hr, hk.moves hb hq⟩

/-- A step that spends nothing. -/
theorem steady {x : Check α} {y : Check α'}
    (h : ∀ {p a q}, x.Gives p a q → q.spent = p.spent ∧ u = w a ∧ y.Gives p (f a) q) :
    Metered (fun _ => x) (fun _ => y) f u w where
  spends :=
    fun ha => ⟨.zero, by rw [(h ha).1, Weight.add_zero], by rw [Weight.add_zero, (h ha).2.1]⟩
  within := fun ha hp => by rw [(h ha).1]; exact hp
  moves := fun ha _ => (h ha).2.2

theorem pure {a : α} {b : α'} (hb : b = f a) (hw : u = w a) :
    Metered (fun _ => (Pure.pure a : Check α)) (fun _ => Pure.pure b) f u w := by
  refine steady fun ha => ?_
  obtain ⟨rfl, rfl⟩ := gives_pure.mp ha
  exact ⟨rfl, hw, gives_pure.mpr ⟨hb, rfl⟩⟩

/-- A step that makes no progress. -/
theorem still {x : Check α} (h : ∀ {p a q}, x.Gives p a q → p = q) :
    Metered (fun _ => x) (fun _ => x) id u fun _ => u :=
  steady fun ha => ⟨by rw [h ha], rfl, ha⟩

theorem ofTraced {x : Traced Fault α} :
    Metered (fun _ => Check.ofTraced x) (fun _ => Check.ofTraced x) id u fun _ => u :=
  still fun ha => (gives_ofTraced.mp ha).2

theorem ofFault {x : Except Fault α} :
    Metered (fun _ => Check.ofFault x) (fun _ => Check.ofFault x) id u fun _ => u :=
  still fun ha => (gives_ofFault.mp ha).2

theorem ofError {x : Except Error α} :
    Metered (fun _ => Check.ofError x) (fun _ => Check.ofError x) id u fun _ => u :=
  still fun ha => (gives_ofError.mp ha).2

theorem lift {x : Traced Failure α} :
    Metered (fun _ => (liftM x : Check α)) (fun _ => liftM x) id u fun _ => u :=
  still fun ha => (gives_lift.mp ha).2

theorem fail {cause : Cause} {position : Position} :
    Metered (fun _ => Check.fail cause position) (fun _ => Check.fail cause position) f u w :=
  steady fun ha => absurd ha not_gives_fail

theorem spend {weight : Weight} {position : Position} :
    Metered (fun limit => Check.spend weight limit position)
    (fun limit => Check.spend weight limit position) id u
      fun _ => u + weight where
  spends := fun ha => ⟨weight, by rw [(gives_spend.mp ha).1], rfl⟩
  within := by
    intro limit p a q ha _
    obtain ⟨rfl, hl⟩ := gives_spend.mp ha
    exact hl
  moves := by
    intro limit limit' p a q ha hq
    obtain ⟨rfl, -⟩ := gives_spend.mp ha
    exact gives_spend.mpr ⟨rfl, hq⟩

/-- What stands beside the parts of a step stands beside its result. -/
theorem beside (h : Metered x y f u w) (v : Weight) : Metered x y f (v + u) fun a => v + w a where
  spends := by
    intro limit p a q ha
    obtain ⟨more, hq, hmore⟩ := h.spends ha
    exact ⟨more, hq, by rw [Weight.add_assoc, hmore]⟩
  within := h.within
  moves := h.moves

/-- A part that is built after others. -/
theorem onto (h : Metered x y f .zero w) (v : Weight) : Metered x y f v fun a => v + w a := by
  simpa only [Weight.add_zero] using h.beside v

theorem ahead (h : Metered x y f u w) (v : Weight) : Metered x y f (u + v) fun a => w a + v := by
  simpa only [Weight.add_comm v] using h.beside v

/-- What is known of a statement, which is a step with a limit and a sum of its own. -/
theorem statement (h : Metered x y f .zero w) {limit limit' : Weight} (hl : limit.le limit' = true)
    {p q : Progress} {a : α} (ha : (Check.statement (x limit)).Gives p a q) :
    q.spent = p.spent ∧ (w a).le limit = true ∧ (Check.statement (y limit')).Gives p (f a) q := by
  obtain ⟨r, hx, rfl⟩ := gives_statement.mp ha
  have hr : r.spent.le limit = true := h.within hx (Weight.zero_le limit)
  obtain ⟨more, spent, total⟩ := h.spends hx
  refine ⟨rfl, ?_, gives_statement.mpr ⟨r, h.moves hx (Weight.le_trans hr hl), rfl⟩⟩
  rw [← total, ← show r.spent = Weight.zero + more from spent]
  exact hr

end Metered

end Check

/-! ### Scopes with a higher limit -/

/-- The scope with another limit for the expressions of its statements. -/
def Scope.raised (s : Scope) (w : Weight) : Scope :=
  { s with world := { s.world with limits := { s.world.limits with expression := w } } }

/-- The step is metered, and its counterpart is the same step in the scope with the other limit. -/
abbrev Check.MeteredIn {α : Type} (s : Scope) (w : Weight) (x : Scope → Weight → Check α)
    (before : Weight) (after : α → Weight) : Prop :=
  Metered (x s) (x (s.raised w)) id before after

theorem Scope.resolveType_raised (s : Scope) (w : Weight) :
    (s.raised w).resolveType = s.resolveType := by
  funext x
  refine Scope.resolveType_congr ?_ x
  exact fun _ => rfl

theorem Scope.addVariable_raised (s : Scope) (w : Weight) (v : Variable) (position : Position) :
    (s.raised w).addVariable v position = (s.addVariable v position).map (·.raised w) := by
  show (if (s.frame.symbols.lookup v.name).isSome then _ else _) = _
  rw [Scope.addVariable]
  split <;> rfl

namespace Typed

variable {s : Scope} {w : Weight}

theorem conversionWeights_raised : ∀ (es : List Typed) (ts : List Ty) (total : Weight),
    conversionWeights (s.raised w) total es ts = conversionWeights s total es ts
  | [], _, _ | _ :: _, [], _ => by rw [conversionWeights, conversionWeights] <;> simp
  | e :: es, t :: ts, total => by
    rw [conversionWeights, conversionWeights]
    refine congrArg (_ >>= ·) (funext fun found => ?_)
    cases found with
    | none => rfl
    | some c => exact conversionWeights_raised es ts (total + c)

end Typed

namespace Candidate

variable {α : Type} {s : Scope} {w : Weight}

theorem scored_raised (operands : List Typed) : ∀ cs : List (Candidate α),
    scored (s.raised w) operands cs = scored s operands cs
  | [] => rfl
  | c :: cs => by rw [scored, scored, Typed.conversionWeights_raised, scored_raised operands cs]

theorem giving_raised (t : Ty) : ∀ cs : List (Scored α), giving (s.raised w) t cs = giving s t cs
  | [] => rfl
  | c :: cs => by
    rw [giving, giving, giving_raised t cs]
    rfl

theorem choose_raised (cs : List (Candidate α)) (operands : List Typed) (expected : Option Ty) :
    choose (s.raised w) cs operands expected = choose s cs operands expected := by
  have same : preferred (α := α) (s.raised w) expected = preferred s expected := by
    funext cs
    unfold preferred
    simp only [giving_raised]
  rw [choose, choose, scored_raised, same]

end Candidate

/-! ### Expressions, given their parts -/

theorem Literal.typed_metered {s : Scope} {w : Weight} {span : Span} (l : Literal) :
    Check.MeteredIn s w (fun s _ => l.typed s span) .zero Typed.spending := by
  refine .steady fun h => ?_
  have same : l.typed (s.raised w) span = l.typed s span := by cases l <;> rfl
  rw [same]
  obtain ⟨rfl, ⟨n, r, -, rfl⟩ | ⟨b, rfl⟩ | ⟨r, rfl⟩⟩ := typed_gives h
  all_goals exact ⟨rfl, by rw [Typed.spending_plain, Node.spending], h⟩

namespace Typed

open Check

variable {s : Scope} {w : Weight} {span : Span}

/-- A chain that is attached is paid for; a literal that is adopted costs nothing. -/
theorem convert_metered (t : Ty) (mandatory explicit : Bool) (e : Typed) :
    MeteredIn s w (fun s limit => e.convert s limit t mandatory explicit) e.spending spending := by
  unfold convert
  refine Metered.bind .ofTraced fun same _ => ?_
  cases same with
  | true => exact .pure rfl rfl
  | false =>
    refine Metered.bind .ofFault fun adopted h => ?_
    cases adopted with
    | some e' =>
      obtain ⟨_, _, _, h⟩ := h
      exact .pure rfl (adopt_eq_some (gives_ofFault.mp h).1).spending_eq.symm
    | none =>
      refine Metered.bind .lift fun chain _ => ?_
      cases chain with
      | none => exact .pure rfl rfl
      | some c => exact Metered.bind .spend fun _ _ => .pure rfl (spending_attach e c).symm

theorem meet_metered (expected : Expected) (e : Typed) :
    MeteredIn s w (fun s limit => e.meet s limit expected) e.spending spending := by
  unfold meet
  cases expected.type? with
  | none => exact .pure rfl rfl
  | some t =>
    by_cases ht : t.isVoid = true
    · simp only [if_pos ht]
      exact .pure rfl rfl
    · simp only [if_neg ht]
      exact convert_metered t _ _ e

theorem decay_metered (e : Typed) : MeteredIn s w e.decay e.spending spending := by
  unfold decay
  by_cases hf : e.type.isFlagged = true
  · simp only [if_pos hf]
    exact convert_metered _ _ _ e
  · simp only [if_neg hf]
    exact .pure rfl rfl

theorem unary_metered (expected : Expected) (op : UnaryOp) (e : Typed) :
    MeteredIn s w (fun s limit => unary s limit expected span op e) e.spending spending := by
  unfold unary
  simp only [MeteredIn, Candidate.choose_raised]
  refine Metered.bind .ofTraced fun choice _ => ?_
  cases choice with
  | ambiguous | none => exact .fail
  | unique o =>
    refine Metered.bind .ofFault fun t _ => ?_
    refine Metered.bind (convert_metered t true false e) fun operand _ => ?_
    refine Metered.bind (.still fun h => (operatorRange_gives h).1) fun range _ => ?_
    refine .pure rfl ?_
    rw [spending_plain, Node.spending]

/-- Both operands are paid for, with their conversions. -/
theorem binary_metered (expected : Expected) (op : BinaryOp) (a b : Typed) :
    MeteredIn s w (fun s limit => binary s limit expected span op a b)
      (a.spending + b.spending) spending := by
  unfold binary
  simp only [MeteredIn, Candidate.choose_raised]
  refine Metered.bind .ofTraced fun choice _ => ?_
  cases choice with
  | ambiguous | none => exact .fail
  | unique o =>
    refine Metered.bind .ofFault fun t _ => ?_
    refine Metered.bind ((convert_metered t true false a).ahead b.spending) fun left _ => ?_
    refine Metered.bind .ofFault fun t' _ => ?_
    refine Metered.bind ((convert_metered t' true false b).beside left.spending) fun right _ => ?_
    refine Metered.bind (.still fun h => (operatorRange_gives h).1) fun range _ => ?_
    refine .pure rfl ?_
    rw [spending_plain, Node.spending]

theorem addressOf_metered (e : Typed) :
    Metered (fun _ => addressOf span e) (fun _ => addressOf span e) id e.spending spending := by
  refine .steady fun h => ?_
  obtain ⟨rfl, -, rfl⟩ := addressOf_gives h
  exact ⟨rfl, by rw [spending_plain, Node.spending], h⟩

/-- Loading a pointer is paid for. -/
theorem dereference_metered (e : Typed) :
    MeteredIn s w (fun s limit => dereference s limit span e) e.spending spending := by
  unfold dereference
  cases e.type.pointed? with
  | none => exact .fail
  | some pointed =>
    refine Metered.bind (decay_metered e) fun operand _ => ?_
    have plain : ∀ r, Metered (fun _ => Pure.pure
      (Typed.plain (.dereference operand) pointed.asReference r span))
        (fun _ => Pure.pure (Typed.plain (.dereference operand) pointed.asReference r span)) id
        operand.spending spending := by
      intro r
      refine .pure rfl ?_
      rw [spending_plain, Node.spending]
    rw [id_eq]
    cases operand.range with
    | pointer range initialized =>
      by_cases hi : initialized.trues = true
      · simp only [if_pos hi]
        exact plain range
      · simp only [if_neg hi]
        exact .fail
    | _ => exact plain _

/-- Arguments are converted one for each parameter, so there are to be as many of them. -/
theorem passAll_metered : ∀ (es : List Typed) (ts : List Ty), es.length = ts.length →
    MeteredIn s w (fun s limit => passAll s limit es ts) (spendingAll es) spendingAll
  | [], [], _ => .pure rfl rfl
  | [], _ :: _, hl | _ :: _, [], hl => by cases hl
  | e :: es, t :: ts, hl => by
    simp only [passAll]
    rw [spendingAll]
    refine Metered.bind ((convert_metered t.bare true false e).ahead (spendingAll es))
      fun first _ => ?_
    refine Metered.bind ((passAll_metered es ts (Nat.succ.inj hl)).beside first.spending)
      fun rest _ => ?_
    refine .pure rfl ?_
    rw [spendingAll]

/-- The arguments are paid for, and the call is free. -/
theorem call_metered (expected : Expected) (name : String) (ids : List Nat) (es : List Typed) :
    MeteredIn s w (fun s limit => call s limit expected span name ids es)
      (spendingAll es) spending := by
  unfold call
  simp only [MeteredIn, Candidate.choose_raised]
  refine Metered.bind .ofFault fun callees _ => ?_
  refine Metered.bind .ofTraced fun choice h => ?_
  cases choice with
  | ambiguous | none => exact .fail
  | unique c =>
    obtain ⟨_, _, _, h⟩ := h
    obtain ⟨candidate, hcandidate, rfl⟩ := Candidate.choose_unique (gives_ofTraced.mp h).1
    obtain ⟨c, hc, rfl⟩ := List.mem_map.mp hcandidate
    have hl := beq_iff_eq.mp (List.mem_filter.mp hc).2
    refine Metered.bind (passAll_metered es c.prototype.signature.parameters hl.symm)
      fun arguments _ => ?_
    refine .pure rfl ?_
    rw [spending_plain, Node.spending]

theorem spending_block (expected : Expected) (ss : List TypedStmt) (r : Option Typed) :
    (block s expected span ss r).spending = r.elim .zero spending := by
  rcases block_cases s expected span ss r with ⟨_, rfl, h⟩ | ⟨rfl, _, -, -, h⟩ | ⟨rfl, -, h⟩
  all_goals rw [h, spending_plain, Node.spending]; rfl

end Typed

/-! ### Statements, given their parts -/

namespace TypedStmt

open Check

variable {s : Scope} {w : Weight} {span : Span}

/-- A variable is defined in the scope with the other limit as well. -/
theorem defineIn_metered (name : String) (t : Ty) (e : Option Typed) :
    Metered (fun _ => defineIn s span name t e) (fun _ => defineIn (s.raised w) span name t e)
      (Prod.map id (Scope.raised · w)) (e.elim .zero Typed.spending) fun r => r.1.spending := by
  have maps : (defineIn s span name t e).Maps (defineIn (s.raised w) span name t e)
      (Prod.map id (Scope.raised · w)) := by
    unfold defineIn
    dsimp only
    split
    · exact Sim.bind (R := fun _ _ => False) sim_fail fun _ _ no => no.elim
    · refine (maps_self _).bind fun slot => ?_
      refine (maps_ofError (Scope.addVariable_raised s w _ _)).bind fun _ => sim_pure rfl
  refine .steady fun {p r q} h => ?_
  obtain ⟨-, hr, rfl, -⟩ := defineIn_gives h
  refine ⟨rfl, ?_, maps.gives h⟩
  rw [hr]
  cases e <;> rw [spending] <;> rfl

theorem retOf_metered (t : Ty) (e : Option Typed) :
    Metered (fun _ => retOf span t e) (fun _ => retOf span t e) id (e.elim .zero Typed.spending)
      spending := by
  refine .steady fun h => ?_
  obtain ⟨rfl, rfl, -⟩ := retOf_gives h
  refine ⟨rfl, ?_, h⟩
  cases e <;> rw [spending] <;> rfl

end TypedStmt

/-- The steps of a statement, under any limit. -/
def Stmt.steps (scope : Scope) (limit : Weight) : Stmt → Check (TypedStmt × Scope)
  | .expr _ e => do
    let value ← e.natural scope limit (.required Builtin.void)
    return (.expr value, scope)
  | .define span name (some type) none => do
    let type ← Check.ofError (scope.resolveType type)
    TypedStmt.defineIn scope span name type none
  | .define span name (some type) (some e) => do
    let type ← Check.ofError (scope.resolveType type)
    let value ← e.check scope limit (.required type.bare)
    let value ← value.asValue scope limit
    TypedStmt.defineIn scope span name type (some value)
  | .define span name none (some e) => do
    let value ← e.natural scope limit .anything
    let value ← value.asValue scope limit
    TypedStmt.defineIn scope span name value.type (some value)
  | .define _ name none none => Check.ofFault (.error (.untypedVariable name))
  | .ret span none => do
    let type ← TypedStmt.returnType scope span
    return (← TypedStmt.retOf span type none, scope)
  | .ret span (some e) => do
    let type ← TypedStmt.returnType scope span
    let value ← e.check scope limit (TypedStmt.returnExpected type)
    return (← TypedStmt.retOf span type (some value), scope)
  | .loop _ c body => do
    let condition ← c.check scope limit (.required Builtin.bool)
    let body ← body.natural scope limit (.required Builtin.void)
    return (.loop condition body, scope)

/-- A statement has a limit and a sum of its own. -/
theorem Stmt.check_eq_statement (scope : Scope) (st : Stmt) :
    st.check scope = Check.statement (st.steps scope scope.expressionLimit) := by
  cases st with
  | define span name type init =>
    cases type with
    | none => cases init <;> rw [Stmt.check, Stmt.steps]
    | some type =>
      cases init with
      | none => rw [Stmt.check, Stmt.steps]
      | some e => rw [Stmt.check, Stmt.steps]; simp only [Expr.check, bind_assoc]
  | ret span value =>
    cases value with
    | none => rw [Stmt.check, Stmt.steps]
    | some e => rw [Stmt.check, Stmt.steps]; simp only [Expr.check, bind_assoc]
  | loop span c body => rw [Stmt.check, Stmt.steps]; simp only [Expr.check, bind_assoc]
  | _ => rw [Stmt.check, Stmt.steps]

/-- Checking a statement gives no other world. -/
theorem Stmt.check_world {s s' : Scope} {st : Stmt} {t : TypedStmt} {p q : Progress}
    (h : (st.check s).Gives p (t, s') q) : s'.world = s.world := by
  cases st.check_yields h with
  | declare _ _ ha | define _ _ _ _ _ ha | infer _ _ _ ha => exact (Scope.addVariable_world ha).1
  | expr _ | leave _ _ | ret _ _ _ _ | loop _ _ _ => rfl

/-- What is known of a statement that was checked: it leaves the sum around it alone, its own weight
is within the limit of the scope, and a higher limit changes nothing. -/
structure Stmt.Settled (st : Stmt) (s : Scope) (w : Weight) (p : Progress) (t : TypedStmt)
    (s' : Scope)
    (q : Progress) : Prop where
  spent : q.spent = p.spent
  paid : t.spending.le s.expressionLimit = true
  world : s'.world = s.world
  raised : (st.check (s.raised w)).Gives p (t, s'.raised w) q

theorem Stmt.settled_of_steps {st : Stmt} {s : Scope} {w : Weight}
    (hw : s.expressionLimit.le w = true)
    (h : Check.Metered (fun limit => st.steps s limit) (fun limit => st.steps (s.raised w) limit)
      (Prod.map id (Scope.raised · w)) .zero fun r => r.1.spending)
    {p q : Progress} {t : TypedStmt} {s' : Scope} (hst : (st.check s).Gives p (t, s') q) :
    st.Settled s w p t s' q := by
  have world := Stmt.check_world hst
  rw [Stmt.check_eq_statement] at hst
  obtain ⟨spent, paid, raised⟩ := h.statement hw hst
  refine ⟨spent, paid, world, ?_⟩
  rw [Stmt.check_eq_statement]
  exact raised

/-! ### Whole trees -/

section Trees

open Check

variable {w : Weight} {s : Scope} {expected : Expected} {limit : Weight}

/-- A call of anything but a name fails. -/
theorem Expr.natural_call_other {span : Span}
    {callee : Expr} {es : List Expr} (h : ∀ nameSpan name, callee ≠ .identifier nameSpan name) :
    (Expr.call span callee es).natural s limit expected = (do
      let callee ← callee.natural s limit .anything
      Check.fail (.tryToCallNonCallable callee.type.text) span.start) := by
  rw [Expr.natural]
  exact h

theorem Stmt.checkAll_last {span : Span} {e : Expr} (h : expected.wantsValue = true) :
    Stmt.checkAll s limit expected [.expr span e] = (do
      let result ← e.check s limit expected
      return ([], some result)) := by
  unfold Stmt.checkAll
  rw [h, Expr.check, bind_assoc]

theorem Stmt.checkAll_next {st : Stmt} {ss : List Stmt}
    (h : ∀ span e, st = .expr span e → ss = [] → expected.wantsValue = true → False) :
    Stmt.checkAll s limit expected (st :: ss) = (do
      let (first, s) ← st.check s
      let (rest, result) ← Stmt.checkAll s limit expected ss
      return (first :: rest, result)) := by
  rw [Stmt.checkAll.eq_def]
  dsimp only
  split
  · next hw => exact (h _ _ rfl rfl hw).elim
  · rfl

/-- An expression that is converted to what is expected of it spends what both steps spend. -/
theorem Expr.check_metered {e : Expr}
    (h : MeteredIn s w (fun s limit => e.natural s limit expected) .zero Typed.spending) :
    MeteredIn s w (fun s limit => e.check s limit expected) .zero Typed.spending :=
  h.bind fun natural _ => Typed.meet_metered expected natural

mutual

/-- By induction on the expression: every node adds what its own conversions weigh. -/
theorem Expr.natural_metered : ∀ (e : Expr) (expected : Expected) {s : Scope},
    s.expressionLimit.le w = true →
    MeteredIn s w (fun s limit => e.natural s limit expected) .zero Typed.spending
  | .literal span l, expected, s, _ => by
    simp only [Expr.natural]
    exact l.typed_metered
  | .identifier span name, expected, s, _ => by
    simp only [Expr.natural]
    refine .steady fun h => ?_
    obtain ⟨rfl, v, -, rfl⟩ := Typed.ofName_gives h
    refine ⟨rfl, ?_, h⟩
    rw [Typed.spending_plain, Node.spending]
  | .prefixed span .negate e, expected, s, hs | .prefixed span .not e, expected, s, hs => by
    simp only [Expr.natural]
    exact (Expr.natural_metered e .anything hs).bind fun operand _ =>
      Typed.unary_metered expected _ operand
  | .prefixed span .addressOf e, expected, s, hs => by
    simp only [Expr.natural]
    exact (Expr.natural_metered e .anything hs).bind fun operand _ =>
      Typed.addressOf_metered operand
  | .prefixed span .dereference e, expected, s, hs => by
    simp only [Expr.natural]
    exact (Expr.natural_metered e .anything hs).bind fun operand _ =>
      Typed.dereference_metered operand
  | .binary span op a b, expected, s, hs => by
    simp only [Expr.natural]
    refine (Expr.natural_metered a .anything hs).bind fun left _ => ?_
    refine ((Expr.natural_metered b .anything hs).onto left.spending).bind fun right _ => ?_
    exact Typed.binary_metered expected op left right
  | .logical span op a b, expected, s, hs => by
    simp only [Expr.natural]
    refine (Expr.natural_metered a (.required Builtin.bool) hs).bind fun left _ => ?_
    refine (Typed.meet_metered (.required Builtin.bool) left).bind fun left _ => ?_
    refine ((Expr.natural_metered b (.required Builtin.bool) hs).onto left.spending).bind
      fun right _ => ?_
    refine ((Typed.meet_metered (.required Builtin.bool) right).beside left.spending).bind
      fun right _ => ?_
    refine .pure rfl ?_
    unfold Typed.logical
    rw [Typed.spending_plain, Node.spending]
  | .assign span a b, expected, s, hs => by
    simp only [Expr.natural]
    refine (Expr.natural_metered a .anything hs).bind fun target _ => ?_
    refine Metered.bind (.still fun h => (Typed.assignable_gives h).1) fun type _ => ?_
    refine ((Expr.natural_metered b (.required type) hs).onto target.spending).bind
      fun value _ => ?_
    refine ((Typed.meet_metered (.required type) value).beside target.spending).bind
      fun value _ => ?_
    refine .pure rfl ?_
    rw [Typed.assign, Typed.spending_plain, Node.spending]
  | .call span callee es, expected, s, hs => by
    have other := Expr.natural_metered callee .anything hs
    by_cases named : ∃ nameSpan name, callee = .identifier nameSpan name
    · obtain ⟨nameSpan, name, rfl⟩ := named
      simp only [Expr.natural]
      refine Metered.bind (.still fun h => (Typed.calledFunctions_gives h).1) fun ids _ => ?_
      refine (Expr.naturals_metered es hs).bind fun arguments _ => ?_
      exact Typed.call_metered expected name ids arguments
    · simp only [Expr.natural_call_other fun nameSpan name h => named ⟨nameSpan, name, h⟩]
      exact other.bind fun _ _ => .fail
  | .conditional span c t none, expected, s, hs => by
    simp only [Expr.natural]
    refine (Expr.natural_metered c (.required Builtin.bool) hs).bind fun condition _ => ?_
    refine (Typed.meet_metered (.required Builtin.bool) condition).bind fun condition _ => ?_
    refine ((Block.natural_metered t (.required Builtin.void) hs).onto condition.spending).bind
      fun thenArm _ => ?_
    refine .pure rfl ?_
    rw [Typed.spending_plain, Node.spending]
  | .conditional span c t (some e), expected, s, hs => by
    simp only [Expr.natural]
    refine (Expr.natural_metered c (.required Builtin.bool) hs).bind fun condition _ => ?_
    refine (Typed.meet_metered (.required Builtin.bool) condition).bind fun condition _ => ?_
    refine ((Block.natural_metered t expected hs).onto condition.spending).bind fun thenArm _ => ?_
    refine ((Typed.meet_metered expected thenArm).beside condition.spending).bind
      fun thenArm _ => ?_
    refine ((Typed.decay_metered thenArm).beside condition.spending).bind fun thenArm _ => ?_
    refine ((Block.natural_metered e (.required thenArm.type) hs).onto _).bind fun elseArm _ => ?_
    refine ((Typed.meet_metered (.required thenArm.type) elseArm).beside _).bind fun elseArm _ => ?_
    refine Metered.bind .ofTraced fun range _ => ?_
    refine .pure rfl ?_
    rw [Typed.spending_plain, Node.spending]
  | .block b, expected, s, hs => by
    simp only [Expr.natural_block]
    exact Block.natural_metered b expected hs
  | .cast span e target, expected, s, hs => by
    simp only [MeteredIn, Expr.natural, Scope.resolveType_raised]
    refine Metered.bind .ofError fun t _ => ?_
    refine (Expr.natural_metered e .anything hs).bind fun operand _ => ?_
    refine (Typed.convert_metered t true true operand).bind fun operand _ => ?_
    refine .pure rfl ?_
    rw [Typed.spending_plain, Node.spending]

theorem Expr.naturals_metered : ∀ (es : List Expr) {s : Scope}, s.expressionLimit.le w = true →
    MeteredIn s w (fun s limit => Expr.naturals s limit es) .zero Typed.spendingAll
  | [], s, _ => by
    simp only [Expr.naturals]
    exact .pure rfl rfl
  | e :: es, s, hs => by
    simp only [Expr.naturals]
    refine (Expr.natural_metered e .anything hs).bind fun first _ => ?_
    refine ((Expr.naturals_metered es hs).onto first.spending).bind fun rest _ => ?_
    refine .pure rfl ?_
    rw [Typed.spendingAll]

theorem Block.natural_metered : ∀ (b : Block) (expected : Expected) {s : Scope},
    s.expressionLimit.le w = true →
    MeteredIn s w (fun s limit => b.natural s limit expected) .zero Typed.spending
  | .mk span ss, expected, s, hs => by
    simp only [Block.natural]
    refine Metered.bind (Stmt.checkAll_metered ss expected (s := s.push) hs) fun r _ => ?_
    exact .pure rfl (Typed.spending_block expected r.1 r.2).symm

/-- Of the statements of a block only the value at the end counts. -/
theorem Stmt.checkAll_metered : ∀ (ss : List Stmt) (expected : Expected) {s : Scope},
    s.expressionLimit.le w = true →
    MeteredIn s w (fun s limit => Stmt.checkAll s limit expected ss) .zero
      fun r => r.2.elim .zero Typed.spending
  | [], expected, s, _ => by
    simp only [Stmt.checkAll]
    exact .pure rfl rfl
  | st :: ss, expected, s, hs => by
    have settled : ∀ {p t s' q}, (st.check s).Gives p (t, s') q → st.Settled s w p t s' q :=
      fun h => Stmt.settled_of_steps hs (Stmt.steps_metered st hs) h
    by_cases last : ∃ span e, st = .expr span e ∧ ss = [] ∧ expected.wantsValue = true
    · obtain ⟨span, e, rfl, rfl, hw⟩ := last
      simp only [Stmt.checkAll_last hw]
      exact (Expr.check_metered (Expr.natural_metered e expected hs)).bind fun result _ =>
        .pure rfl rfl
    · have next : ∀ span e, st = .expr span e → ss = [] → expected.wantsValue = true → False :=
        fun span e he hss hw => last ⟨span, e, he, hss, hw⟩
      simp only [Stmt.checkAll_next next]
      -- a statement has a sum of its own: around it nothing is spent
      have first : Metered (fun _ => st.check s) (fun _ => st.check (s.raised w))
          (Prod.map id (Scope.raised · w)) .zero fun _ => .zero :=
        .steady fun h => ⟨(settled h).spent, rfl, (settled h).raised⟩
      refine first.bind ?_
      rintro ⟨t, s'⟩ ⟨_, _, _, h⟩
      have hs' : s'.expressionLimit.le w = true := by
        rw [Scope.expressionLimit, (settled h).world]
        exact hs
      exact (Stmt.checkAll_metered ss expected hs').bind fun rest _ => .pure rfl rfl

/-- The steps of a statement, without its limit. -/
theorem Stmt.steps_metered : ∀ (st : Stmt) {s : Scope}, s.expressionLimit.le w = true →
    Metered (fun limit => st.steps s limit) (fun limit => st.steps (s.raised w) limit)
      (Prod.map id (Scope.raised · w)) .zero fun r => r.1.spending
  | .expr span e, s, hs => by
    simp only [Stmt.steps]
    refine (Expr.natural_metered e (.required Builtin.void) hs).bind fun value _ => ?_
    refine .pure rfl ?_
    rw [TypedStmt.spending]
  | .define span name (some x) none, s, hs => by
    simp only [Stmt.steps, Scope.resolveType_raised]
    refine Metered.bind .ofError fun t _ => ?_
    exact TypedStmt.defineIn_metered name t none
  | .define span name (some x) (some e), s, hs => by
    simp only [Stmt.steps, Scope.resolveType_raised]
    refine Metered.bind .ofError fun t _ => ?_
    refine (Expr.check_metered (Expr.natural_metered e (.required t.bare) hs)).bind fun met _ => ?_
    refine (Typed.meet_metered (.required met.type.bare) met).bind fun value _ => ?_
    exact TypedStmt.defineIn_metered name t (some value)
  | .define span name none none, s, hs => by
    simp only [Stmt.steps]
    exact .steady fun h => by cases (gives_ofFault.mp h).1
  | .define span name none (some e), s, hs => by
    simp only [Stmt.steps]
    refine (Expr.natural_metered e .anything hs).bind fun natural _ => ?_
    refine (Typed.meet_metered (.required natural.type.bare) natural).bind fun value _ => ?_
    exact TypedStmt.defineIn_metered name value.type (some value)
  | .ret span none, s, hs => by
    simp only [Stmt.steps]
    refine Metered.bind (.still fun h => (TypedStmt.returnType_gives h).1) fun t _ => ?_
    exact (TypedStmt.retOf_metered t none).bind fun st _ => .pure rfl rfl
  | .ret span (some e), s, hs => by
    simp only [Stmt.steps]
    refine Metered.bind (.still fun h => (TypedStmt.returnType_gives h).1) fun t _ => ?_
    refine (Expr.check_metered (Expr.natural_metered e (TypedStmt.returnExpected t) hs)).bind
      fun value _ => ?_
    exact (TypedStmt.retOf_metered t (some value)).bind fun st _ => .pure rfl rfl
  | .loop span c b, s, hs => by
    simp only [Stmt.steps]
    refine (Expr.check_metered (Expr.natural_metered c (.required Builtin.bool) hs)).bind
      fun condition _ => ?_
    refine ((Block.natural_metered b (.required Builtin.void) hs).onto condition.spending).bind
      fun body _ => ?_
    refine .pure rfl ?_
    rw [TypedStmt.spending]

end

theorem Block.check_metered (hs : s.expressionLimit.le w = true) (b : Block) (expected : Expected) :
    MeteredIn s w (fun s limit => b.check s limit expected) .zero Typed.spending :=
  (Block.natural_metered b expected hs).bind fun natural _ => Typed.meet_metered expected natural

theorem Stmt.check_settled {s s' : Scope} (hs : s.expressionLimit.le w = true) {st : Stmt}
    {t : TypedStmt} {p q : Progress} (h : (st.check s).Gives p (t, s') q) :
    st.Settled s w p t s' q :=
  Stmt.settled_of_steps hs (Stmt.steps_metered st hs) h

end Trees

end Gauge
