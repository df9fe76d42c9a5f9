import Gauge.Proofs.Cast.Rename
import Gauge.Proofs.Typed.Build

/-!
# Proofs — typed trees under other numbers

`Typed.rename` gives the structs and functions in a tree other numbers, and `Scope.Renamed` is a
scope whose structs and functions have other numbers; the functions of a name may be listed in
another order there.  Operands weigh as much there as before, and the same overload is chosen for
them (`Candidate.choose_renamed`): the contenders are the same, and so is the lightest of them
wherever it stands in the list.
-/

namespace Gauge

variable (ρ : Renaming)

/-! ### Trees -/

def Signature.rename (s : Signature) : Signature :=
  ⟨s.name, s.result.rename ρ, s.parameters.map (Ty.rename ρ)⟩

def Prototype.rename (p : Prototype) : Prototype := { p with signature := p.signature.rename ρ }

def Callee.rename (c : Callee) : Callee := ⟨ρ.function c.id, c.name, c.prototype.rename ρ⟩

def Variable.rename (v : Variable) : Variable := { v with type := v.type.rename ρ }

def Facts.rename (f : Facts) : Facts :=
  { f with type := f.type.rename ρ, chain := f.chain.rename ρ }

mutual

/-- The expression with other numbers for its structs and functions. -/
def Typed.rename : Typed → Typed
  | .mk f n => .mk (f.rename ρ) n.rename

def Node.rename : Node → Node
  | .constant c => .constant c
  | .variable slot name => .variable slot name
  | .unary op e => .unary op e.rename
  | .addressOf e => .addressOf e.rename
  | .dereference e => .dereference e.rename
  | .binary op a b t => .binary op a.rename b.rename (t.rename ρ)
  | .logical op a b => .logical op a.rename b.rename
  | .assign a b => .assign a.rename b.rename
  | .call c es => .call (c.rename ρ) (Typed.renameAll es)
  | .conditional c t none => .conditional c.rename t.rename none
  | .conditional c t (some e) => .conditional c.rename t.rename (some e.rename)
  | .block ss none => .block (TypedStmt.renameAll ss) none
  | .block ss (some r) => .block (TypedStmt.renameAll ss) (some r.rename)
  | .cast e => .cast e.rename

def Typed.renameAll : List Typed → List Typed
  | [] => []
  | e :: es => e.rename :: Typed.renameAll es

def TypedStmt.rename : TypedStmt → TypedStmt
  | .expr e => .expr e.rename
  | .define slot name t none => .define slot name (t.rename ρ) none
  | .define slot name t (some e) => .define slot name (t.rename ρ) (some e.rename)
  | .ret none => .ret none
  | .ret (some e) => .ret (some e.rename)
  | .loop c b => .loop c.rename b.rename

def TypedStmt.renameAll : List TypedStmt → List TypedStmt
  | [] => []
  | s :: ss => s.rename :: TypedStmt.renameAll ss

end

def Expected.rename : Expected → Expected
  | .anything => .anything
  | .preferably t => .preferably (t.rename ρ)
  | .required t => .required (t.rename ρ)

variable {ρ}

theorem Typed.renameAll_eq_map : ∀ es : List Typed, renameAll ρ es = es.map (rename ρ)
  | [] => rfl
  | e :: es => by rw [renameAll, renameAll_eq_map es, List.map_cons]

theorem TypedStmt.renameAll_eq_map : ∀ ss : List TypedStmt, renameAll ρ ss = ss.map (rename ρ)
  | [] => rfl
  | s :: ss => by rw [renameAll, renameAll_eq_map ss, List.map_cons]

theorem Node.rename_block (ss : List TypedStmt) (r : Option Typed) :
    (Node.block ss r).rename ρ = .block (ss.map (TypedStmt.rename ρ)) (r.map (Typed.rename ρ)) := by
  cases r <;> rw [rename, TypedStmt.renameAll_eq_map] <;> rfl

theorem TypedStmt.rename_define (slot : Nat) (name : String) (t : Ty) (e : Option Typed) :
    (TypedStmt.define slot name t e).rename ρ =
      .define slot name (t.rename ρ) (e.map (Typed.rename ρ)) := by
  cases e <;> rw [rename] <;> rfl

theorem TypedStmt.isReturn_rename (s : TypedStmt) : (s.rename ρ).isReturn = s.isReturn := by
  cases s with
  | define _ _ _ e => rw [rename_define]; rfl
  | ret e => cases e <;> simp only [rename, isReturn]
  | _ => simp only [rename, isReturn]

theorem Node.diverges_rename (n : Node) : (n.rename ρ).diverges = n.diverges := by
  cases n with
  | block ss r =>
    rw [rename_block]
    cases r with
    | none =>
      show ((ss.map (TypedStmt.rename ρ)).getLast?).any _ = (ss.getLast?).any _
      rw [List.getLast?_map]
      cases ss.getLast? with
      | none => rfl
      | some s => exact s.isReturn_rename
    | some r => rfl
  | conditional c t e => cases e <;> simp only [rename, diverges]
  | _ => simp only [rename, diverges]

namespace Typed

@[simp] theorem facts_rename (e : Typed) : (e.rename ρ).facts = e.facts.rename ρ := by
  obtain ⟨f, n⟩ := e
  rw [rename]
  rfl

@[simp] theorem node_rename (e : Typed) : (e.rename ρ).node = e.node.rename ρ := by
  obtain ⟨f, n⟩ := e
  rw [rename]
  rfl

@[simp] theorem type_rename (e : Typed) : (e.rename ρ).type = e.type.rename ρ := by
  rw [type, type, facts_rename, Facts.rename, Chain.destination?_rename]
  cases e.facts.chain.destination? <;> rfl

@[simp] theorem range_rename (e : Typed) : (e.rename ρ).range = e.range := by
  rw [range, range, facts_rename, Facts.rename, Chain.range?_rename]

@[simp] theorem position_rename (e : Typed) : (e.rename ρ).position = e.position := by
  rw [position, position, facts_rename, Facts.rename]

@[simp] theorem diverges_rename (e : Typed) : (e.rename ρ).diverges = e.diverges := by
  rw [diverges, diverges, node_rename, Node.diverges_rename]

theorem plain_rename (n : Node) (t : Ty) (r : Range) (span : Span) :
    (plain n t r span).rename ρ = plain (n.rename ρ) (t.rename ρ) r span := by
  rw [plain, rename]
  rfl

theorem attach_rename (e : Typed) (c : Chain) :
    (e.attach c).rename ρ = (e.rename ρ).attach (c.rename ρ) := by
  rw [attach, attach, rename, facts_rename, node_rename, Facts.rename, Chain.append_rename]
  rfl

end Typed

@[simp] theorem Expected.type?_rename (x : Expected) :
    (x.rename ρ).type? = x.type?.map (Ty.rename ρ) := by
  cases x <;> rfl

@[simp] theorem Expected.isRequired_rename (x : Expected) :
    (x.rename ρ).isRequired = x.isRequired := by
  cases x <;> rfl

@[simp] theorem Expected.wantsValue_rename (x : Expected) :
    (x.rename ρ).wantsValue = x.wantsValue := by
  cases x <;> simp [wantsValue, rename, type?]

/-! ### Scopes -/

variable (ρ) in
/-- What a name stands for under the other numbers; functions may come in another order. -/
inductive Binding.Renamed : Binding → Binding → Prop
  | value (v : Variable) : Renamed (.variable v) (.variable (v.rename ρ))
  | functions {ids ids' : List Nat} (h : ids'.Perm (ids.map ρ.function)) :
      Renamed (.functions ids) (.functions ids')

variable (ρ) in
/-- The scope `s'` knows what `s` knows, under the other numbers. -/
structure Scope.Renamed (s s' : Scope) : Prop where
  structs : Structs.Renamed ρ s.structs s'.structs
  casts : s.world.casts = Builtin.casts ∧ s'.world.casts = Builtin.casts
  overloads : s.world.overloads = Builtin.overloads ∧ s'.world.overloads = Builtin.overloads
  limits : s'.world.limits = s.world.limits
  types : ∀ name, s'.lookupType name = (s.lookupType name).map (Ty.rename ρ)
  symbols : ∀ name, Option.Rel (Binding.Renamed ρ) (s.lookupSymbol name) (s'.lookupSymbol name)
  taken : ∀ name, (s'.frame.symbols.lookup name).isSome = (s.frame.symbols.lookup name).isSome
  callees : ∀ i, s'.callee? (ρ.function i) = (s.callee? i).map (Callee.rename ρ)
  returnType : s'.returnType? = s.returnType?.map (Ty.rename ρ)

theorem Scope.resolveType_rename {s s' : Scope}
    (h : ∀ name, s'.lookupType name = (s.lookupType name).map (Ty.rename ρ)) :
    ∀ x : TypeExpr, s'.resolveType x = (s.resolveType x).map (Ty.rename ρ)
  | .named span name => by
    rw [resolveType, resolveType, h]
    cases s.lookupType name <;> rfl
  | .pointer _ x => by
    rw [resolveType, resolveType, resolveType_rename h x]
    cases s.resolveType x <;> rfl
  | .mutable _ x => by
    rw [resolveType, resolveType, resolveType_rename h x]
    cases s.resolveType x with
    | error e => rfl
    | ok t => exact congrArg Except.ok (Ty.asMutable_rename t)

namespace Scope.Renamed

variable {s s' : Scope} (h : Renamed ρ s s')

include h

theorem push : Renamed ρ s.push s'.push :=
  { h with taken := fun _ => rfl }

theorem setReturnType (t : Ty) : Renamed ρ (s.setReturnType t) (s'.setReturnType (t.rename ρ)) :=
  { h with returnType := rfl }

/-- A variable is added under the other numbers. -/
theorem addVariable {v : Variable} {position : Position}
    {t : Scope} (ht : s.addVariable v position = .ok t) :
    ∃ t', s'.addVariable (v.rename ρ) position = .ok t' ∧ Renamed ρ t t' := by
  have found : ∀ (s : Scope) (v : Variable) (name : String),
    (s.bind v.name (.variable v)).lookupSymbol name =
      if name = v.name then some (.variable v) else s.lookupSymbol name := by
    intro s v name
    by_cases hn : name = v.name
    · simp [lookupSymbol, frames, Scope.bind, hn]
    · simp [lookupSymbol, frames, Scope.bind, List.lookup_cons, List.findSome?_cons,
        beq_eq_false_iff_ne.mpr hn, hn]
  unfold Scope.addVariable at ht ⊢
  split at ht
  · cases ht
  next hfree =>
    cases ht
    rw [← h.taken] at hfree
    refine ⟨_, if_neg hfree, { h with symbols := fun name => ?_, taken := fun name => ?_ }⟩
    · rw [found, found]
      by_cases hn : name = v.name
      · rw [if_pos hn, if_pos (show name = (v.rename ρ).name from hn)]
        exact .some (.value v)
      · rw [if_neg hn, if_neg (show ¬ name = (v.rename ρ).name from hn)]
        exact h.symbols name
    · by_cases hn : name = v.name
      · simp [Scope.bind, Variable.rename, hn]
      · simpa [Scope.bind, List.lookup_cons, Variable.rename,
          beq_eq_false_iff_ne.mpr hn] using h.taken name

theorem resolveType (x : TypeExpr) : s'.resolveType x = (s.resolveType x).map (Ty.rename ρ) :=
  resolveType_rename h.types x

theorem callee {i : Nat} {c : Callee} (hc : s.callee i = .ok c) :
    s'.callee (ρ.function i) = .ok (c.rename ρ) := by
  rw [Scope.callee, h.callees, callee_eq_ok hc]
  rfl

theorem castLimit : s'.castLimit = s.castLimit := by rw [Scope.castLimit, h.limits]; rfl

theorem expressionLimit : s'.expressionLimit = s.expressionLimit := by
  rw [Scope.expressionLimit, h.limits]; rfl

theorem rangeOf (t : Ty) : s'.rangeOf (t.rename ρ) = s.rangeOf t := h.structs.rangeOf t

theorem compare (a b : Ty) : (s'.compare (a.rename ρ) (b.rename ρ)).outcome =
    (s.compare a b).outcome :=
  h.structs.compare a b

theorem search (t : Ty) (range : Range) (q : CastQuery) :
    (s'.search (t.rename ρ) range (q.rename ρ)).outcome =
      (s.search t range q).outcome.map (Found.rename ρ) := by
  rw [Scope.search, Scope.search, h.casts.1, h.casts.2]
  exact h.structs.search t range q

end Scope.Renamed

/-! ### Choosing -/

section Choice

variable {α β : Type} {s s' : Scope}

/-- Operands weigh as much as before. -/
theorem Typed.conversionWeight_rename (h : s.Renamed ρ s') (e : Typed) (t : Ty) :
    ((e.rename ρ).conversionWeight s' (t.rename ρ)).outcome = (e.conversionWeight s t).outcome := by
  have same := h.compare e.type t
  have found := h.search e.type e.range ⟨t, false, s.castLimit⟩
  rw [conversionWeight, conversionWeight, type_rename, range_rename, h.castLimit]
  refine Traced.bind_congr same fun equal => ?_
  cases equal with
  | true => simp
  | false =>
    simp only [Bool.false_eq_true, if_false, Traced.outcome_bind]
    rw [CastQuery.rename] at found
    rw [found]
    cases (s.search e.type e.range ⟨t, false, s.castLimit⟩).outcome with
    | error _ => rfl
    | ok f => cases f <;> rfl

theorem Typed.conversionWeights_rename (h : s.Renamed ρ s') : ∀ (total : Weight) (es : List Typed)
    (ts : List Ty), (conversionWeights s' total (es.map (rename ρ))
      (ts.map (Ty.rename ρ))).outcome =
      (conversionWeights s total es ts).outcome
  | _, [], ts => by
    cases ts <;> rfl
  | _, _ :: _, [] => rfl
  | total, e :: es, t :: ts => by
    rw [List.map_cons, List.map_cons, conversionWeights, conversionWeights]
    refine Traced.bind_congr (e.conversionWeight_rename h t) fun weight => ?_
    cases weight with
    | none => rfl
    | some w => exact conversionWeights_rename h (total + w) es ts

variable (ρ) in
/-- The candidate under the other numbers, where `f` gives them to what it stands for. -/
def Candidate.rename (f : α → β) (c : Candidate α) : Candidate β :=
  ⟨f c.value, c.result.rename ρ, c.parameters.map (Ty.rename ρ)⟩

variable (ρ) in
def Scored.rename (f : α → β) (c : Scored α) : Scored β := ⟨c.candidate.rename ρ f, c.weight⟩

theorem Scope.same_rename (h : s.Renamed ρ s') (a b : Ty) :
    s'.same (a.rename ρ) (b.rename ρ) = s.same a b := by
  rw [same, same, h.compare]

namespace Candidate

variable {f : α → β} {cs : List (Candidate α)} {operands : List Typed} {expected : Option Ty}

theorem viable_rename (h : s.Renamed ρ s') (answered : Answered s operands expected cs) :
    viable s' (operands.map (Typed.rename ρ)) (cs.map (rename ρ f)) =
      (viable s operands cs).map (Scored.rename ρ f) := by
  rw [viable, viable, weighed, weighed, List.filterMap_map, List.map_filterMap]
  refine List.filterMap_congr fun c hc => ?_
  obtain ⟨weight, hw⟩ := answered.weights c hc
  have hw' := (Typed.conversionWeights_rename h .zero operands c.parameters).trans hw
  have same : (c.rename ρ f).weight? s' (operands.map (Typed.rename ρ)) = weight := weight?_eq hw'
  rw [Function.comp_apply, weight?_eq hw, same, Option.map_map]
  rfl

theorem favour_rename (h : s.Renamed ρ s') (ss : List (Scored α)) :
    favour s' (expected.map (Ty.rename ρ)) (ss.map (Scored.rename ρ f)) =
      (favour s expected ss).map (Scored.rename ρ f) := by
  cases expected with
  | none => rfl
  | some t =>
    have same : ∀ c : Scored α, s'.same (c.rename ρ f).candidate.result (t.rename ρ).bare =
        s.same c.candidate.result t.bare := fun c => by
      rw [Ty.bare_rename]
      exact Scope.same_rename h c.candidate.result t.bare
    simp only [favour, Option.map_some, Ty.isVoid_rename, List.mem_map, exists_exists_and_eq_and,
      List.filter_map, Function.comp_def, same]
    split <;> rfl

/-- All that was answered before is answered. -/
theorem Answered.rename (h : s.Renamed ρ s') (answered : Answered s operands expected cs) :
    Answered s' (operands.map (Typed.rename ρ)) (expected.map (Ty.rename ρ))
      (cs.map (rename ρ f)) := by
  constructor
  · refine List.forall_mem_map.mpr fun c hc => ?_
    obtain ⟨weight, hw⟩ := answered.weights c hc
    exact ⟨weight, (Typed.conversionWeights_rename h .zero operands c.parameters).trans hw⟩
  · intro t' ht hv
    obtain ⟨t, rfl, rfl⟩ := Option.map_eq_some_iff.mp ht
    rw [viable_rename h answered]
    refine List.forall_mem_map.mpr fun c hc => ?_
    obtain ⟨same, hsame⟩ := answered.results t rfl (Ty.isVoid_rename t ▸ hv) c hc
    exact ⟨same, (Ty.bare_rename t ▸ h.compare c.candidate.result t.bare).trans hsame⟩

theorem Least.rename {ss : List (Scored α)} {v : α} (h : Least ss v) :
    Least (ss.map (Scored.rename ρ f)) (f v) := by
  obtain ⟨c, rest, hp, rfl, hlt⟩ := h
  exact ⟨c.rename ρ f, rest.map (Scored.rename ρ f), hp.map _, rfl, List.forall_mem_map.mpr hlt⟩

/-- **The same overload is chosen under the other numbers**, in whatever order the candidates stand.
-/
theorem choose_renamed (h : s.Renamed ρ s') {cs' : List (Candidate β)}
    (hp : cs'.Perm (cs.map (rename ρ f))) {a : α}
    (hc : (choose s cs operands expected).outcome = .ok (.unique a)) :
    (choose s' cs' (operands.map (Typed.rename ρ)) (expected.map (Ty.rename ρ))).outcome =
      .ok (.unique (f a)) := by
  obtain ⟨answered, ha⟩ := choose_eq_ok.mp hc
  have least := (lightest_eq_least_iff.mp ha.symm).rename (ρ := ρ) (f := f)
  rw [contenders, ← favour_rename h, ← viable_rename h answered] at least
  refine choose_eq_ok.mpr ⟨(answered.rename h).of_perm hp, Eq.symm ?_⟩
  exact lightest_eq_least_iff.mpr (least.of_perm (favour_perm (viable_perm hp)))

end Candidate

end Choice

end Gauge
