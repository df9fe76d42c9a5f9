import Gauge.Proofs.Module.Built
import Gauge.Proofs.Module.Reserved

/-!
# Proofs — what the third pass leaves

A function is resolved if its declaration makes sense and no function of its name that is resolved
already takes the same parameters.  So the pass succeeds exactly if all declarations make sense and
those of one name differ in their parameters (`Module.resolveFunctions_told`,
`Module.resolveFunctions_defined`), which has nothing to do with their order.  Then every function
can be called as it is declared (`Module.Declared`).
-/

namespace Gauge

open Module

/-! ### One function -/

section Resolve

variable {K : StructRef → Prop} {result : Ty} {s s' : Scope} {id : Nat}

/-- The scope in which a function is resolved. -/
def Scope.define (s : Scope) (id : Nat) (p : Prototype) : Scope :=
  { s with world := { s.world with
    functions := s.world.functions.modify id fun e => { e with prototype? := some p } } }

theorem Scope.callee?_define_self {p : Prototype} (hid : id < s.world.functions.length) :
    (s.define id p).callee? id = some ⟨id, s.functionName id, p⟩ := by
  simp only [callee?, define, functionName, List.getElem?_modify_eq, List.getElem?_eq_getElem hid]
  rfl

theorem Scope.callee?_define_of_ne {i : Nat} {p : Prototype} (h : i ≠ id) :
    (s.define id p).callee? i = s.callee? i := by
  simp only [callee?, define, List.getElem?_modify_ne _ _ (Ne.symm h)]

theorem Scope.functionName_define (id i : Nat) (p : Prototype) :
    (s.define id p).functionName i = s.functionName i := by
  unfold functionName define
  rw [List.getElem?_modify]
  cases s.world.functions[i]? with
  | none => rfl
  | some e => by_cases h : id = i <;> simp [h]

theorem Scope.Resolves.define {g : Signature} {a : Abi} (hid : id < s.world.functions.length) :
    s.Resolves id g (s.define id ⟨.none, none, g, a⟩) :=
  ⟨rfl, rfl, List.length_modify .., fun _ h => callee?_define_of_ne h,
    ⟨_, callee?_define_self hid, rfl⟩⟩

/-- A function is resolved exactly if no other one of its name takes the same parameters. -/
theorem Scope.resolveFunction_iff (hK : StructRef.Distinct K) (hs : s.Native K result)
    {position : Position} {g : Signature} {abi : Abi} {ids : List Nat} (hg : g.Native K)
    (hnew : s.callee? id = none) (hids : s.frame.symbols.lookup (s.functionName id) =
      some (.functions ids)) :
    (s.resolveFunction id (g.type .none none) abi position).outcome = .ok s' ↔
      (∀ i ∈ ids, ¬ s.Takes id g.parameters i) ∧ s' = s.define id ⟨.none, none, g, abi⟩ := by
  obtain ⟨taken, ht, hiff⟩ : ∃ b, (s.anyTakes id g.parameters ids).outcome = .ok b ∧ _ :=
    anyTakes_native hK hs hg.parameters ids
  have ht : (s.isTaken id (s.functionName id) g.parameters).outcome = .ok taken := by
    rwa [isTaken, hids]
  simp only [resolveFunction, hnew, Signature.type]
  rw [if_neg (by simp), Traced.outcome_bind, Failure.ofTraced, Traced.outcome_mapError, ht]
  cases taken with
  | true =>
    obtain ⟨i, hi, takes⟩ := hiff.mp rfl
    exact ⟨fun h => (by cases h), fun h => absurd takes (h.1 i hi)⟩
  | false =>
    have none : ∀ i ∈ ids, ¬ s.Takes id g.parameters i := by
      intro i hi takes
      cases hiff.mpr ⟨i, hi, takes⟩
    refine ⟨fun h => ⟨none, ?_⟩, fun h => ?_⟩
    · cases h
      rfl
    · rw [h.2]
      rfl

end Resolve

/-! ### All functions -/

namespace Module

/-- The function as it is declared, ready to be called. -/
def Declared (s : Scope) (p : PendingFunction) (c : Callee) : Prop :=
  ∃ g a, signature s p.decl = .ok g ∧ abi p.decl = .ok a ∧
    c = ⟨p.id, p.decl.name, ⟨.none, none, g, a⟩⟩

/-- Functions of one name differ in their parameters. -/
def Told (s : Scope) (pending : List PendingFunction) : Prop :=
  ∀ p ∈ pending, ∀ q ∈ pending, p.id ≠ q.id → p.decl.name = q.decl.name → ∀ g h,
    signature s p.decl = .ok g → signature s q.decl = .ok h → g.parameters ≠ h.parameters

/-- One step of the pass. -/
def resolveNext (s : Scope) (p : PendingFunction) : Traced Failure Scope := do
  let signature ← Failure.ofError (signature s p.decl)
  let abi ← Failure.ofError (abi p.decl)
  s.resolveFunction p.id (signature.type .none none) abi p.decl.span.start

theorem resolveFunctions_eq (pending : List PendingFunction) (s : Scope) :
    (resolveFunctions pending s).outcome =
      pending.foldlM (fun s p => (resolveNext s p).outcome) s := by
  rw [resolveFunctions, Traced.foldlM_outcome]
  rfl

variable {K : StructRef → Prop} {result : Ty} {functions : List FunctionDecl} {b s s' : Scope}
  {left : List PendingFunction} {p : PendingFunction}

/-- The functions of a module while they are being resolved, with all that is known of those that
are: they stand in the scope as they are declared, and they can be told apart. -/
structure Resolved (K : StructRef → Prop) (result : Ty) (functions : List FunctionDecl) (b : Scope)
    (left : List PendingFunction) (s : Scope) : Prop
    extends Resolving K result (pendingFunctions 0 functions) b left s where
  rest : s = { b with world := { b.world with functions := s.world.functions } }
  length : s.world.functions.length = functions.length
  names : ∀ i, s.functionName i = (functions[i]?.map (·.name)).getD ""
  symbols : ∀ name, s.frame.symbols.lookup name = bindingOf (numbersOf name functions)
  declared : ∀ p ∈ pendingFunctions 0 functions, p ∈ left ∨ ∃ c, s.callee? p.id = some c ∧
    Declared b p c
  told : Told b ((pendingFunctions 0 functions).filter fun p => (s.callee? p.id).isSome)

namespace Resolved

theorem signature_eq (h : Resolved K result functions b left s) (decl : FunctionDecl) :
    signature s decl = signature b decl := by
  refine signature_congr (fun name => ?_) decl
  rw [Scope.lookupType, Scope.lookupType, h.frames]

/-- A function stands among those of its name. -/
theorem lookup (h : Resolved K result functions b left s) (hp : p ∈ pendingFunctions 0 functions) :
    s.functionName p.id = p.decl.name ∧
      s.frame.symbols.lookup p.decl.name = some (.functions (numbersOf p.decl.name functions)) := by
  have hd := mem_pendingFunctions.mp hp
  have mem : p.id ∈ numbersOf p.decl.name functions := mem_numbersOf.mpr ⟨p.decl, hd, rfl⟩
  refine ⟨by rw [h.names, hd]; rfl, ?_⟩
  rw [h.symbols]
  cases hn : numbersOf p.decl.name functions with
  | nil =>
    rw [hn] at mem
    cases mem
  | cons i is => rfl

/-- The functions that may take the same parameters are those of one name that are resolved. -/
theorem takes_iff (h : Resolved K result functions b (p :: left) s) {ps : List Ty} :
    (∃ i ∈ numbersOf p.decl.name functions, s.Takes p.id ps i) ↔
      ∃ q ∈ pendingFunctions 0 functions, (s.callee? q.id).isSome = true ∧
      q.decl.name = p.decl.name ∧
        ∃ g, signature b q.decl = .ok g ∧ g.parameters = ps := by
  constructor
  · rintro ⟨i, hi, -, c, hc, hps⟩
    obtain ⟨d, hd, hname⟩ := mem_numbersOf.mp hi
    have hq : (⟨i, d⟩ : PendingFunction) ∈ pendingFunctions 0 functions :=
      mem_pendingFunctions.mpr hd
    refine ⟨⟨i, d⟩, hq, by rw [hc]; rfl, hname, ?_⟩
    rcases h.resolved _ hq with hleft | ⟨c', hc', hsig⟩
    · cases (h.unresolved _ hleft).symm.trans hc
    · cases hc.symm.trans hc'
      exact ⟨_, hsig, hps⟩
  · rintro ⟨q, hq, hsome, hname, g, hg, hps⟩
    have hnone := h.unresolved p (.head _)
    refine ⟨q.id, mem_numbersOf.mpr ⟨q.decl, mem_pendingFunctions.mp hq, hname⟩, ?_, ?_⟩
    · intro hid
      rw [hid, hnone] at hsome
      cases hsome
    · rcases h.resolved q hq with hleft | ⟨c, hc, hsig⟩
      · rw [h.unresolved q hleft] at hsome
        cases hsome
      · cases hg.symm.trans hsig
        exact ⟨c, hc, hps⟩

/-- The next function is resolved exactly if its declaration makes sense and tells it apart from the
functions before it. -/
theorem next_iff (hK : StructRef.Distinct K) (h : Resolved K result functions b (p :: left) s)
    (hp : p ∈ pendingFunctions 0 functions) :
    (resolveNext s p).outcome = .ok s' ↔ ∃ g a, signature b p.decl = .ok g ∧ abi p.decl = .ok a ∧
      (¬ ∃ q ∈ pendingFunctions 0 functions, (s.callee? q.id).isSome = true ∧
        q.decl.name = p.decl.name ∧ ∃ g', signature b q.decl = .ok g' ∧
        g'.parameters = g.parameters) ∧
      s' = s.define p.id ⟨.none, none, g, a⟩ := by
  obtain ⟨hname, hlookup⟩ := h.lookup hp
  have hnew := h.unresolved p (.head _)
  have resolves : ∀ {g : Signature} {a : Abi}, signature b p.decl = .ok g →
      ((s.resolveFunction p.id (g.type .none none) a p.decl.span.start).outcome = .ok s' ↔
        (∀ i ∈ numbersOf p.decl.name functions, ¬ s.Takes p.id g.parameters i) ∧
          s' = s.define p.id ⟨.none, none, g, a⟩) := by
    intro g a hg
    rw [← h.signature_eq] at hg
    exact Scope.resolveFunction_iff hK h.native (signature_native h.native hg) hnew
      (by rw [hname, hlookup])
  have apart : ∀ {g : Signature}, (∀ i ∈ numbersOf p.decl.name functions,
      ¬ s.Takes p.id g.parameters i) ↔ ¬ ∃ q ∈ pendingFunctions 0 functions,
        (s.callee? q.id).isSome = true ∧ q.decl.name = p.decl.name ∧
        ∃ g', signature b q.decl = .ok g' ∧ g'.parameters = g.parameters := by
    intro g
    rw [← h.takes_iff]
    simp only [not_exists, not_and]
  constructor
  · intro hr
    obtain ⟨g, hg, hr⟩ := Traced.bind_ok.mp hr
    obtain ⟨a, ha, hr⟩ := Traced.bind_ok.mp hr
    have hg := Failure.ofError_eq_ok.mp hg
    rw [h.signature_eq] at hg
    obtain ⟨hapart, rfl⟩ := (resolves hg).mp hr
    exact ⟨g, a, hg, Failure.ofError_eq_ok.mp ha, apart.mp hapart, rfl⟩
  · rintro ⟨g, a, hg, ha, hapart, rfl⟩
    refine Traced.bind_ok.mpr ⟨g, Failure.ofError_eq_ok.mpr ?_, ?_⟩
    · rw [h.signature_eq, hg]
    · exact Traced.bind_ok.mpr ⟨a, Failure.ofError_eq_ok.mpr ha,
        (resolves hg).mpr ⟨apart.mpr hapart, rfl⟩⟩

/-- What is known of the functions after the next one is resolved. -/
theorem next (hK : StructRef.Distinct K) (h : Resolved K result functions b (p :: left) s)
    (hp : p ∈ pendingFunctions 0 functions) (hr : (resolveNext s p).outcome = .ok s') :
    Resolved K result functions b left s' := by
  obtain ⟨g, a, hg, ha, hapart, rfl⟩ := (h.next_iff hK hp).mp hr
  have hid := h.counted p (.head _)
  have native : (s.define p.id ⟨.none, none, g, a⟩).Native K result := by
    obtain ⟨g', hg', hr⟩ := Traced.bind_ok.mp hr
    obtain ⟨a', -, hr⟩ := Traced.bind_ok.mp hr
    exact h.native.resolveFunction (signature_native h.native (Failure.ofError_eq_ok.mp hg')) hr
  have before : ∀ q ∈ (pendingFunctions 0 functions).filter
      (fun q => ((s.define p.id ⟨.none, none, g, a⟩).callee? q.id).isSome), q.id ≠ p.id →
      q ∈ (pendingFunctions 0 functions).filter fun q => (s.callee? q.id).isSome := by
    intro q hq hne
    rw [List.mem_filter, Scope.callee?_define_of_ne hne] at hq
    exact List.mem_filter.mpr hq
  refine ⟨h.toResolving.step native hg (.define hid), ?_,
    (List.length_modify ..).trans h.length, ?_,
    h.symbols, ?_, ?_⟩
  · obtain ⟨fs, hs⟩ : ∃ fs, s = { b with world := { b.world with functions := fs } } := ⟨_, h.rest⟩
    rw [hs]
    rfl
  · intro i
    rw [Scope.functionName_define, h.names]
  · intro q hq
    rcases h.declared q hq with hleft | ⟨c, hc, hdecl⟩
    · rcases List.mem_cons.mp hleft with rfl | hleft
      · refine .inr ⟨_, Scope.callee?_define_self hid, g, a, hg, ha, ?_⟩
        rw [(h.lookup hp).1]
      · exact .inl hleft
    · refine .inr ⟨c, (Scope.callee?_define_of_ne fun hqp => ?_).trans hc, hdecl⟩
      rw [hqp, h.unresolved p (.head _)] at hc
      cases hc
  · intro x hx y hy hne hname gx gy hgx hgy heq
    -- the new function was compared with all others of its name
    have new : ∀ q ∈ (pendingFunctions 0 functions).filter
        (fun q => ((s.define p.id ⟨.none, none, g, a⟩).callee? q.id).isSome), q.id ≠ p.id →
        q.decl.name = p.decl.name → ∀ g', signature b q.decl = .ok g' →
        g'.parameters ≠ g.parameters := by
      intro q hq hqp hqn g' hg' hps
      obtain ⟨hq, hsome⟩ := List.mem_filter.mp (before q hq hqp)
      exact hapart ⟨q, hq, hsome, hqn, g', hg', hps⟩
    by_cases hxp : x.id = p.id
    · obtain rfl := eq_of_mem_pendingFunctions (List.mem_of_mem_filter hx) hp hxp
      cases hgx.symm.trans hg
      exact new y hy (Ne.symm hne) hname.symm gy hgy heq.symm
    · by_cases hyp : y.id = p.id
      · obtain rfl := eq_of_mem_pendingFunctions (List.mem_of_mem_filter hy) hp hyp
        cases hgy.symm.trans hg
        exact new x hx hne hname gx hgx heq
      · exact h.told x (before x hx hxp) y (before y hy hyp) hne hname gx gy hgx hgy heq

end Resolved

/-- Before any function is resolved. -/
theorem Resolved.start {limits : Limits} {structs : List StructDecl} (t : Structs)
    (hs : s.Lists (pendingStructs 0 structs) (pendingFunctions 0 functions))
    (hr : s.Reserves limits structs functions) :
    Resolved (· ∈ (pendingStructs 0 structs).map (·.ref)) Builtin.void functions (s.withStructs t)
      (pendingFunctions 0 functions) (s.withStructs t) := by
  refine ⟨.start hs t, rfl, ?_, ?_, hr.symbols, fun p hp => .inl hp, ?_⟩
  · show s.world.functions.length = functions.length
    rw [hr.declared, List.length_map]
  · intro i
    show ((s.world.functions[i]?).map _).getD "" = _
    rw [hr.declared, List.getElem?_map, Option.map_map]
    rfl
  · intro p hp
    obtain ⟨hp, hsome⟩ := List.mem_filter.mp hp
    rw [(Resolving.start hs t).unresolved p hp] at hsome
    cases hsome

/-- When the pass succeeds all functions are resolved. -/
theorem resolved_of_fold (hK : StructRef.Distinct K) :
    ∀ {left : List PendingFunction} {s s' : Scope},
    (∀ p ∈ left, p ∈ pendingFunctions 0 functions) → Resolved K result functions b left s →
    left.foldlM (fun s p => (resolveNext s p).outcome) s = .ok s' →
    Resolved K result functions b [] s'
  | [], s, s', _, h, hr => by
    cases hr
    exact h
  | p :: left, s, s', hleft, h, hr => by
    rw [List.foldlM_cons] at hr
    obtain ⟨s₁, h₁, hr⟩ := bind_eq_ok.mp hr
    exact resolved_of_fold hK (fun q hq => hleft q (.tail _ hq))
      (h.next hK (hleft p (.head _)) h₁) hr

/-- The pass succeeds if all declarations make sense and can be told apart. -/
theorem resolve_fold_defined (hK : StructRef.Distinct K)
    (hd : ∀ p ∈ pendingFunctions 0 functions, ∃ c, Declared b p c)
    (ht : Told b (pendingFunctions 0 functions)) : ∀ {left : List PendingFunction} {s : Scope},
    (∀ p ∈ left, p ∈ pendingFunctions 0 functions) → Resolved K result functions b left s →
    ∃ s', left.foldlM (fun s p => (resolveNext s p).outcome) s = .ok s'
  | [], s, _, _ => ⟨s, rfl⟩
  | p :: left, s, hleft, h => by
    have hp := hleft p (.head _)
    obtain ⟨-, g, a, hg, ha, -⟩ := hd p hp
    have hr : (resolveNext s p).outcome = .ok (s.define p.id ⟨.none, none, g, a⟩) := by
      refine (h.next_iff hK hp).mpr ⟨g, a, hg, ha, ?_, rfl⟩
      rintro ⟨q, hq, hsome, hname, g', hg', hps⟩
      refine ht q hq p hp ?_ hname g' g hg' hg hps
      intro hid
      rw [hid, h.unresolved p (.head _)] at hsome
      cases hsome
    obtain ⟨s', hs'⟩ := resolve_fold_defined hK hd ht
      (fun q hq => hleft q (.tail _ hq)) (h.next hK hp hr)
    exact ⟨s', by rw [List.foldlM_cons, hr, ok_bind, hs']⟩

namespace Built

variable {limits : Limits} {tree : ModuleSyntax} {m : Module} {scope : Scope} {reserved : Reserved}
  {t : Structs}

theorem reserved_eq (h : Built limits tree m scope reserved s t) :
    reserved = ⟨pendingStructs 0 (structsOf tree.items),
      pendingFunctions 0 (functionsOf tree.items)⟩ :=
  (reserve_reserves h.reserve).1

theorem reserves (h : Built limits tree m scope reserved s t) :
    s.Reserves limits (structsOf tree.items) (functionsOf tree.items) :=
  (reserve_reserves h.reserve).2

/-- In an accepted module all functions are resolved. -/
theorem allResolved (h : Built limits tree m scope reserved s t) :
    Resolved (· ∈ reserved.structs.map (·.ref)) Builtin.void (functionsOf tree.items)
    (s.withStructs t) []
      scope := by
  have distinct := h.distinct
  have lists := h.lists
  have resolve := h.resolve
  obtain rfl := h.reserved_eq
  rw [resolveFunctions_eq] at resolve
  exact resolved_of_fold distinct (fun p hp => hp) (.start t lists h.reserves) resolve

/-- What stands at a place of the declarations is declared there. -/
theorem declared (h : Built limits tree m scope reserved s t) {i : Nat} {c : Callee}
    (hc : m.declarations[i]? = some c) :
    ∃ p ∈ pendingFunctions 0 (functionsOf tree.items), p.id = i ∧
    Declared (s.withStructs t) p c := by
  have declarations := h.declarations
  have resolved := h.allResolved
  obtain rfl := h.reserved_eq
  obtain ⟨p, hp, hcallee⟩ := getElem?_of_mapM_eq_ok declarations hc
  have hd : (functionsOf tree.items)[i]? = some p.decl ∧ p.id = i := by
    rw [pendingFunctions, List.getElem?_map, List.getElem?_zipIdx] at hp
    simp only [Option.map_map, Option.map_eq_some_iff] at hp
    obtain ⟨d, hd, rfl⟩ := hp
    exact ⟨hd, Nat.zero_add i⟩
  obtain ⟨hd, rfl⟩ := hd
  have mem := mem_pendingFunctions.mpr hd
  obtain ⟨c', hc', hdecl⟩ := (resolved.declared p mem).resolve_left List.not_mem_nil
  cases (Scope.callee_of_some hc').symm.trans hcallee
  exact ⟨p, mem, rfl, hdecl⟩

/-- In an accepted module functions of one name differ in their parameters. -/
theorem told (h : Built limits tree m scope reserved s t) :
    Told (s.withStructs t) (pendingFunctions 0 (functionsOf tree.items)) := by
  have resolved := h.allResolved
  have all : ∀ p ∈ pendingFunctions 0 (functionsOf tree.items),
      (scope.callee? p.id).isSome = true := by
    intro p hp
    obtain ⟨c, hc, -⟩ := (resolved.declared p hp).resolve_left List.not_mem_nil
    rw [hc]
    rfl
  have told := resolved.told
  rwa [List.filter_eq_self.mpr all] at told

end Built

end Module

end Gauge
