import Gauge.Proofs.Typed.Rename

/-!
# Proofs — checking under other numbers

A scope in which structs and functions have other numbers checks every expression the way the first
scope does: where the one gives a tree, the other gives the tree under the other numbers, with the
same progress (`Expr.natural_maps`, `Block.natural_maps`).  `x.Sim y R` says this of two steps:
whatever `x` gives, `y` gives something that `R` relates to it.
-/

namespace Gauge

/-! ### Steps that follow each other -/

namespace Check

variable {α α' β β' : Type} {R : α → α' → Prop} {S : β → β' → Prop} {y : Check α'} {x : Check α}
  {f : α → α'}

/-- Whatever `x` gives, `y` gives a counterpart of it, and makes the same progress. -/
def Sim (x : Check α) (y : Check α') (R : α → α' → Prop) : Prop :=
  ∀ p a q, x.Gives p a q → ∃ b, R a b ∧ y.Gives p b q

/-- Whatever `x` gives, `y` gives its image. -/
abbrev Maps (x : Check α) (y : Check α') (f : α → α') : Prop := x.Sim y fun a b => b = f a

theorem Maps.gives (h : x.Maps y f) {p q : Progress} {a : α}
    (ha : x.Gives p a q) : y.Gives p (f a) q := by
  obtain ⟨_, rfl, hb⟩ := h p a q ha
  exact hb

theorem sim_pure {a : α} {b : α'} (h : R a b) : (pure a : Check α).Sim (pure b) R := by
  intro p c q hc
  obtain ⟨rfl, rfl⟩ := gives_pure.mp hc
  exact ⟨b, h, gives_pure.mpr ⟨rfl, rfl⟩⟩

theorem Sim.bind {k : α → Check β} {k' : α' → Check β'} (hx : x.Sim y R)
    (hk : ∀ a b, R a b → (k a).Sim (k' b) S) : (x >>= k).Sim (y >>= k') S := by
  intro p c q hc
  obtain ⟨a, r, ha, hc⟩ := gives_bind.mp hc
  obtain ⟨b, hab, hb⟩ := hx p a r ha
  obtain ⟨d, hcd, hd⟩ := hk a b hab r c q hc
  exact ⟨d, hcd, gives_bind.mpr ⟨b, r, hb, hd⟩⟩

theorem Maps.bind {k : α → Check β} {k' : α' → Check β'}
    (hx : x.Maps y f) (hk : ∀ a, (k a).Sim (k' (f a)) S) : (x >>= k).Sim (y >>= k') S :=
  Sim.bind hx fun a _ hb => hb ▸ hk a

theorem sim_fail {cause : Cause} {position : Position} : (fail cause position : Check α).Sim y R :=
  fun _ _ _ h => absurd h not_gives_fail

theorem maps_self (x : Check α) : x.Maps x id := fun _ a _ h => ⟨a, rfl, h⟩

theorem sim_lift {x : Traced Failure α} {y : Traced Failure α'}
    (h : ∀ a, x.outcome = .ok a → ∃ b, R a b ∧ y.outcome = .ok b) :
    (liftM x : Check α).Sim (liftM y) R := by
  intro p a q ha
  obtain ⟨hx, rfl⟩ := gives_lift.mp ha
  obtain ⟨b, hab, hb⟩ := h a hx
  exact ⟨b, hab, gives_lift.mpr ⟨hb, rfl⟩⟩

theorem sim_ofTraced {x : Traced Fault α} {y : Traced Fault α'}
    (h : ∀ a, x.outcome = .ok a → ∃ b, R a b ∧ y.outcome = .ok b) :
    (ofTraced x).Sim (ofTraced y) R := by
  refine sim_lift fun a ha => ?_
  obtain ⟨b, hab, hb⟩ := h a (Failure.ofTraced_outcome_ok.mp ha)
  exact ⟨b, hab, Failure.ofTraced_outcome_ok.mpr hb⟩

theorem sim_ofFault {x : Except Fault α} {y : Except Fault α'}
    (h : ∀ a, x = .ok a → ∃ b, R a b ∧ y = .ok b) : (ofFault x).Sim (ofFault y) R :=
  sim_ofTraced h

theorem sim_ofError {x : Except Error α} {y : Except Error α'}
    (h : ∀ a, x = .ok a → ∃ b, R a b ∧ y = .ok b) : (ofError x).Sim (ofError y) R := by
  refine sim_lift fun a ha => ?_
  obtain ⟨b, hab, hb⟩ := h a (Failure.ofError_eq_ok.mp ha)
  exact ⟨b, hab, Failure.ofError_eq_ok.mpr hb⟩

theorem maps_ofError {x : Except Error α} {y : Except Error α'} (h : y = x.map f) :
    (ofError x).Maps (ofError y) f :=
  sim_ofError fun a ha => ⟨f a, rfl, by rw [h, ha]; rfl⟩

/-- What is chosen among overloads, where anything but one overload ends in a failure. -/
theorem sim_choice {x : Traced Fault (Choice α)} {x' : Traced Fault (Choice α')}
    {k : Choice α → Check β} {k' : Choice α' → Check β'}
    (hx : ∀ a, x.outcome = .ok (.unique a) → x'.outcome = .ok (.unique (f a)))
    (ambiguous : (k .ambiguous).Sim (k' .ambiguous) fun _ _ => False)
    (none : (k .none).Sim (k' .none) fun _ _ => False)
    (unique : ∀ a, x.outcome = .ok (.unique a) → (k (.unique a)).Sim (k' (.unique (f a))) S) :
    (ofTraced x >>= k).Sim (ofTraced x' >>= k') S := by
  intro p b q hb
  obtain ⟨c, r, hc, hb⟩ := gives_bind.mp hb
  obtain ⟨chosen, rfl⟩ := gives_ofTraced.mp hc
  cases c with
  | ambiguous =>
    obtain ⟨_, no, -⟩ := ambiguous p b q hb
    exact no.elim
  | none =>
    obtain ⟨_, no, -⟩ := none p b q hb
    exact no.elim
  | unique a =>
    obtain ⟨b', hbb, hb'⟩ := unique a chosen p b q hb
    exact ⟨b', hbb, gives_bind.mpr ⟨_, p, gives_ofTraced.mpr ⟨hx a chosen, rfl⟩, hb'⟩⟩

theorem sim_statement (h : x.Sim y R) : (statement x).Sim (statement y) R := by
  intro p a q ha
  obtain ⟨r, hx, rfl⟩ := gives_statement.mp ha
  obtain ⟨b, hab, hb⟩ := h _ a r hx
  exact ⟨b, hab, gives_statement.mpr ⟨r, hb, rfl⟩⟩

end Check

open Check

variable {ρ : Renaming} {s s' : Scope} {limit : Weight} {span : Span}

/-! ### Conversions -/

namespace Typed

/-- Literals are adopted in the same way. -/
theorem adopt_rename (h : s.Renamed ρ s') (target : Ty) (e : Typed) :
    (e.rename ρ).adopt s' (target.rename ρ) = (e.adopt s target).map (Option.map (rename ρ)) := by
  have identity : (e.rename ρ).facts.chain.isIdentity = e.facts.chain.isIdentity := by
    rw [facts_rename, Facts.rename, Chain.isIdentity_rename]
  have taken : ∀ (c : Constant) (r : Range), (Typed.mk { e.facts with type := target, range := r }
      (.constant c)).rename ρ =
        .mk { (e.rename ρ).facts with type := target.rename ρ, range := r } (.constant c) := by
    intro c r
    rw [rename, Node.rename, facts_rename]
    rfl
  unfold adopt
  rw [identity, Ty.isFlagged_rename, node_rename]
  by_cases hc : (!e.facts.chain.isIdentity || target.isFlagged) = true
  · rw [if_pos hc, if_pos hc]
    rfl
  · rw [if_neg hc, if_neg hc]
    cases hn : e.node with
    | constant c =>
      rw [Node.rename]
      cases c with
      | integer v =>
        simp only [Ty.bounds?_rename, Ty.isInteger_rename, Range.literal_rename]
        cases target.bounds? with
        | none => rfl
        | some b =>
          by_cases hv : target.isInteger = true ∧ (v : Int) ≤ b.2
          · simp only [if_pos hv]
            cases Range.literal target v with
            | error _ => rfl
            | ok r => exact congrArg (fun e => Except.ok (some e)) (taken _ r).symm
          · simp only [if_neg hv, Except.map, Option.map_none]
      | bool b => rfl
      | null =>
        simp only [Ty.isPointer_rename, h.structs.nullRange]
        by_cases hp : target.isPointer = true
        · simp only [if_pos hp]
          cases s.structs.nullRange target with
          | error _ => rfl
          | ok r => exact congrArg (fun e => Except.ok (some e)) (taken _ r).symm
        · simp only [if_neg hp, Except.map, Option.map_none]
    | conditional c t e => cases e <;> simp only [Node.rename] <;> rfl
    | block ss r => cases r <;> simp only [Node.rename] <;> rfl
    | _ => simp only [Node.rename]; rfl

/-- A conversion that is looked for is found as before. -/
theorem resolve_rename (h : s.Renamed ρ s') (t : Ty) (range : Range) (q : CastQuery)
    (mandatory : Bool)
    (position : Position) :
    (s'.world.casts.resolve s'.structs (t.rename ρ) range (q.rename ρ) mandatory position).outcome =
      (s.world.casts.resolve s.structs t range q mandatory position).outcome.map
        (Option.map (Chain.rename ρ)) := by
  have ofTraced : ∀ {α β : Type} {x : Traced Fault α} {y : Traced Fault β} {f : α → β},
      y.outcome = x.outcome.map f → (Failure.ofTraced y).outcome =
        (Failure.ofTraced x).outcome.map f := by
    intro α β x y f hy
    rw [Failure.ofTraced, Failure.ofTraced, Traced.outcome_mapError, Traced.outcome_mapError, hy]
    cases x.outcome <;> rfl
  rw [h.casts.1, h.casts.2, CastTable.resolve, CastTable.resolve]
  refine Traced.map_bind_congr ?_ fun same => ?_
  · rw [Failure.ofTraced, Failure.ofTraced, Traced.outcome_mapError, Traced.outcome_mapError]
    exact congrArg _ (h.structs.compare t q.destination)
  · cases same with
    | true => simp [Except.map, Chain.rename, Chain.identity]
    | false =>
      simp only [Bool.false_eq_true, if_false]
      refine Traced.map_bind (ofTraced (h.structs.search t range q)) fun found => ?_
      cases found with
      | unreachable => cases mandatory <;> simp [Found.rename, CastQuery.rename, Except.map]
      | chain c tied => cases tied <;> simp [Found.rename, CastQuery.rename, Except.map]

/-- Conversions are the same. -/
theorem convert_maps (h : s.Renamed ρ s') (target : Ty) (mandatory explicit : Bool) (e : Typed) :
    (e.convert s limit target mandatory explicit).Maps
      ((e.rename ρ).convert s' limit (target.rename ρ) mandatory explicit) (rename ρ) := by
  rw [convert, convert]
  refine Maps.bind (f := id) (sim_ofTraced fun same hsame => ⟨same, rfl, ?_⟩) fun same => ?_
  · rw [type_rename, h.compare, hsame]
  · cases same with
    | true => exact sim_pure rfl
    | false =>
      refine Maps.bind (sim_ofFault fun o ho => ⟨o.map (rename ρ), rfl, ?_⟩) fun adopted => ?_
      · rw [adopt_rename h, ho]
        rfl
      · cases adopted with
        | some e' => exact sim_pure rfl
        | none =>
          refine Maps.bind (f := Option.map (Chain.rename ρ))
            (sim_lift fun c hc => ⟨_, rfl, ?_⟩) fun chain => ?_
          · have found :=
              resolve_rename h e.type e.range ⟨target, explicit, s.castLimit⟩ mandatory e.position
            rw [hc] at found
            rw [type_rename, range_rename, position_rename, h.castLimit]
            exact found
          · cases chain with
            | none => exact sim_pure rfl
            | some c =>
              simp only [Option.map_some, position_rename]
              refine (maps_self _).bind fun _ => sim_pure ?_
              exact (attach_rename e c).symm

theorem meet_maps (h : s.Renamed ρ s') (expected : Expected) (e : Typed) :
    (e.meet s limit expected).Maps ((e.rename ρ).meet s' limit (expected.rename ρ)) (rename ρ) := by
  rw [meet, meet, Expected.type?_rename]
  cases expected.type? with
  | none => exact sim_pure rfl
  | some t =>
    simp only [Option.map_some, Ty.isVoid_rename, Expected.isRequired_rename]
    split
    · exact sim_pure rfl
    · exact convert_maps h t _ _ e

theorem decay_maps (h : s.Renamed ρ s') (e : Typed) :
    (e.decay s limit).Maps ((e.rename ρ).decay s' limit) (rename ρ) := by
  rw [decay, decay, type_rename, Ty.isFlagged_rename, Ty.bare_rename]
  split
  · exact convert_maps h _ _ _ e
  · exact sim_pure rfl

theorem asValue_maps (h : s.Renamed ρ s') (e : Typed) :
    (e.asValue s limit).Maps ((e.rename ρ).asValue s' limit) (rename ρ) := by
  rw [asValue, asValue, type_rename, Ty.bare_rename]
  exact meet_maps h (.required e.type.bare) e

end Typed

/-! ### Expressions, given their parts -/

theorem Builtin.smallestUnsigned_rename (n : Nat) :
    (smallestUnsigned n).rename ρ = smallestUnsigned n := by
  unfold smallestUnsigned
  repeat' split
  all_goals rfl

/-- Literals are the same under other numbers. -/
theorem Literal.typed_maps (h : s.Renamed ρ s') (l : Literal) :
    (l.typed s span).Maps (l.typed s' span) (Typed.rename ρ) := by
  cases l with
  | number text =>
    rw [typed, typed]
    cases readNumber text with
    | error cause => exact sim_fail
    | ok n =>
      refine (maps_self _).bind fun range => sim_pure ?_
      rw [Typed.plain_rename, Builtin.smallestUnsigned_rename, Node.rename]
      rfl
  | bool b =>
    refine sim_pure ?_
    rw [Typed.plain_rename, Node.rename]
    rfl
  | null =>
    rw [typed, typed]
    have null := h.structs.nullRange (.pointerTo Builtin.void)
    have fixed : (Ty.pointerTo Builtin.void).rename ρ = .pointerTo Builtin.void := rfl
    rw [fixed] at null
    rw [null]
    refine (maps_self _).bind fun range => sim_pure ?_
    rw [Typed.plain_rename, fixed, Node.rename]
    rfl

theorem Builtin.overload_rename : ∀ o ∈ overloads, o.result.rename ρ = o.result ∧
    o.parameters.map (Ty.rename ρ) = o.parameters := by
  have scalars : ∀ o ∈ overloads, o.result.scalar?.isSome = true ∧
      ∀ t ∈ o.parameters, t.scalar?.isSome = true := by
    decide +kernel
  intro o ho
  obtain ⟨hresult, hparameters⟩ := scalars o ho
  have fixed : ∀ t ∈ o.parameters, t.rename ρ = id t :=
    fun t ht => Ty.rename_of_scalar (hparameters t ht)
  exact ⟨Ty.rename_of_scalar hresult, (List.map_congr_left fixed).trans (List.map_id _)⟩

namespace Typed

theorem ofName_maps (h : s.Renamed ρ s') (name : String) :
    (ofName s span name).Maps (ofName s' span name) (rename ρ) := by
  rw [ofName, ofName]
  have found := h.symbols name
  generalize s.lookupSymbol name = b, s'.lookupSymbol name = b' at found
  cases found with
  | none => exact sim_fail
  | some hb =>
    cases hb with
    | functions _ => exact sim_fail
    | value v =>
      refine sim_pure ?_
      rw [plain_rename, Node.rename, ← Ty.asReference_rename]
      rfl

/-- The same overload of an operator is chosen. -/
theorem choose_operator (h : s.Renamed ρ s') {op : Operator} {operands : List Typed}
    {expected : Expected}
    {o : Overload}
    (ho : (Candidate.choose s (operatorCandidates s op) operands expected.type?).outcome =
      .ok (.unique o)) :
    (Candidate.choose s' (operatorCandidates s' op) (operands.map (rename ρ))
      (expected.rename ρ).type?).outcome = .ok (.unique o) := by
  rw [Expected.type?_rename]
  refine Candidate.choose_renamed (f := id) h (List.Perm.of_eq ?_) ho
  rw [operatorCandidates, operatorCandidates, Scope.overloadsOf, Scope.overloadsOf, h.overloads.1,
    h.overloads.2, List.map_map]
  refine List.map_congr_left fun o ho => ?_
  obtain ⟨hresult, hparameters⟩ := Builtin.overload_rename (ρ := ρ) o (List.mem_of_mem_filter ho)
  simp only [Function.comp_apply, Candidate.rename, hresult, hparameters, id_eq]

/-- An overload that is chosen for an operator has no number in it. -/
theorem chosen_rename (h : s.Renamed ρ s') {op : Operator} {operands : List Typed}
    {expected : Option Ty}
    {o : Overload}
    (ho : (Candidate.choose s (operatorCandidates s op) operands expected).outcome =
      .ok (.unique o)) :
    o.result.rename ρ = o.result ∧ ∀ i t, o.parameter i = .ok t → t.rename ρ = t := by
  obtain ⟨c, hc, rfl⟩ := Candidate.choose_unique ho
  obtain ⟨hmem, -⟩ := mem_of_operatorCandidates hc
  obtain ⟨hresult, hparameters⟩ := Builtin.overload_rename (ρ := ρ) c.value (h.overloads.1 ▸ hmem)
  refine ⟨hresult, fun i t ht => ?_⟩
  have hi := Overload.parameter_eq_ok ht
  have hi' := congrArg (·[i]?) hparameters
  simp only [List.getElem?_map, hi, Option.map_some] at hi'
  exact Option.some.inj hi'

/-- The same overload is chosen for one operand. -/
theorem unary_maps (h : s.Renamed ρ s') (expected : Expected) (op : UnaryOp) (e : Typed) :
    (unary s limit expected span op e).Maps (unary s' limit (expected.rename ρ) span op
      (e.rename ρ))
      (rename ρ) := by
  rw [unary, unary]
  refine sim_choice (f := id) (fun o ho => choose_operator h ho) sim_fail sim_fail
    fun o ho => ?_
  obtain ⟨hresult, hparameter⟩ := chosen_rename h ho
  refine Sim.bind (R := fun t t' => t' = t ∧ t.rename ρ = t)
    (sim_ofFault fun t ht => ⟨t, ⟨rfl, hparameter 0 t ht⟩, ht⟩) ?_
  rintro _ t ⟨rfl, ht⟩
  have conv : (e.convert s limit t true false).Maps _ _ := convert_maps h t true false e
  rw [ht] at conv
  refine conv.bind fun operand => ?_
  rw [range_rename]
  refine (maps_self _).bind fun range => sim_pure ?_
  rw [plain_rename, hresult, Node.rename]
  rfl

/-- The same overload is chosen for two operands. -/
theorem binary_maps (h : s.Renamed ρ s') (expected : Expected) (op : BinaryOp) (a b : Typed) :
    (binary s limit expected span op a b).Maps
      (binary s' limit (expected.rename ρ) span op (a.rename ρ) (b.rename ρ)) (rename ρ) := by
  rw [binary, binary]
  refine sim_choice (f := id) (fun o ho => choose_operator h ho) sim_fail sim_fail
    fun o ho => ?_
  obtain ⟨hresult, hparameter⟩ := chosen_rename h ho
  have parameter : ∀ i, (ofFault (o.parameter i)).Sim (ofFault (o.parameter i))
      fun t t' => t' = t ∧ t.rename ρ = t := fun i =>
    sim_ofFault fun t ht => ⟨t, ⟨rfl, hparameter i t ht⟩, ht⟩
  refine (parameter 0).bind ?_
  rintro _ t ⟨rfl, ht⟩
  have left : (a.convert s limit t true false).Maps _ _ := convert_maps h t true false a
  rw [ht] at left
  refine left.bind fun a' => (parameter 1).bind ?_
  rintro _ u ⟨rfl, hu⟩
  have right : (b.convert s limit u true false).Maps _ _ := convert_maps h u true false b
  rw [hu] at right
  refine right.bind fun b' => ?_
  rw [range_rename, range_rename]
  refine (maps_self _).bind fun range => sim_pure ?_
  rw [plain_rename, hresult, Node.rename, ht]
  rfl

theorem logical_rename (op : LogicalOp) (a b : Typed) :
    logical span op (a.rename ρ) (b.rename ρ) = (logical span op a b).rename ρ := by
  unfold logical
  rw [range_rename, range_rename, plain_rename, Node.rename]
  rfl

theorem addressOf_maps (e : Typed) :
    (addressOf span e).Maps (addressOf span (e.rename ρ)) (rename ρ) := by
  rw [addressOf, addressOf, type_rename, Ty.isReference_rename, range_rename]
  split
  · refine sim_pure ?_
    rw [plain_rename, Node.rename, Ty.rename_pointerTo, Ty.notReference_rename]
  · exact sim_fail

/-- Pointers are followed alike under other numbers. -/
theorem dereference_maps (h : s.Renamed ρ s') (e : Typed) :
    (dereference s limit span e).Maps (dereference s' limit span (e.rename ρ)) (rename ρ) := by
  rw [dereference, dereference, type_rename, Ty.pointed?_rename]
  cases e.type.pointed? with
  | none => exact sim_fail
  | some pointed =>
    have plain : ∀ (operand : Typed) (r : Range),
        Typed.plain (.dereference (operand.rename ρ)) (pointed.rename ρ).asReference r span =
          (Typed.plain (.dereference operand) pointed.asReference r span).rename ρ := by
      intro operand r
      rw [plain_rename, Node.rename, Ty.asReference_rename]
    refine (decay_maps h e).bind fun operand => ?_
    rw [range_rename, h.rangeOf]
    cases operand.range with
    | pointer range initialized =>
      dsimp only
      split
      · exact sim_pure (plain operand range)
      · exact sim_fail
    | _ => exact sim_pure (plain operand _)

theorem assignable_maps (e : Typed) :
    (assignable span e).Maps (assignable span (e.rename ρ)) (Ty.rename ρ) := by
  rw [assignable, assignable, type_rename, Ty.isReference_rename, Ty.isMutable_rename,
    Ty.bare_rename]
  split
  · exact sim_fail
  · split
    · exact sim_fail
    · exact sim_pure rfl

theorem assign_rename (a b : Typed) : assign span (a.rename ρ) (b.rename ρ) =
    (assign span a b).rename ρ := by
  rw [assign, assign, type_rename, range_rename, plain_rename, Node.rename]

theorem calledFunctions_sim (h : s.Renamed ρ s') (name : String) :
    (calledFunctions s span name).Sim (calledFunctions s' span name)
      fun ids ids' => ids'.Perm (ids.map ρ.function) := by
  rw [calledFunctions, calledFunctions]
  have found := h.symbols name
  generalize s.lookupSymbol name = b, s'.lookupSymbol name = b' at found
  cases found with
  | none => exact sim_fail
  | some hb =>
    cases hb with
    | functions hp => exact sim_pure hp
    | value v => exact sim_fail

theorem passAll_maps (h : s.Renamed ρ s') : ∀ (es : List Typed) (ts : List Ty),
    (passAll s limit es ts).Maps (passAll s' limit (es.map (rename ρ)) (ts.map (Ty.rename ρ)))
      (List.map (rename ρ))
  | [], ts => by
    cases ts <;> exact sim_pure rfl
  | _ :: _, [] => sim_pure rfl
  | e :: es, t :: ts => by
    rw [List.map_cons, List.map_cons, passAll, passAll, Ty.bare_rename]
    refine (convert_maps h t.bare true false e).bind fun first => ?_
    exact (passAll_maps h es ts).bind fun rest => sim_pure rfl

theorem callCandidates_rename (cs : List Callee) (n : Nat) :
    callCandidates (cs.map (Callee.rename ρ)) n =
      (callCandidates cs n).map (Candidate.rename ρ (Callee.rename ρ)) := by
  rw [callCandidates, callCandidates, List.filter_map, List.map_map, List.map_map]
  have count : ((fun c : Callee => c.prototype.signature.parameters.length == n) ∘
    Callee.rename ρ) =
      fun c => c.prototype.signature.parameters.length == n := by
    funext c
    simp [Callee.rename, Prototype.rename, Signature.rename]
  rw [count]
  refine List.map_congr_left fun c _ => ?_
  simp [Candidate.rename, Callee.rename, Prototype.rename, Signature.rename, Function.comp_def]

/-- The same function is called, in whatever order those of its name stand. -/
theorem call_maps (h : s.Renamed ρ s') (expected : Expected) (name : String) {ids ids' : List Nat}
    (hids : ids'.Perm (ids.map ρ.function)) (es : List Typed) :
    (call s limit expected span name ids es).Maps
      (call s' limit (expected.rename ρ) span name ids' (es.map (rename ρ))) (rename ρ) := by
  rw [call, call, Expected.type?_rename]
  refine Sim.bind (R := fun cs cs' => cs'.Perm (cs.map (Callee.rename ρ)))
    (sim_ofFault fun cs hcs => ?_) fun cs cs' hp => ?_
  · obtain ⟨cs', hcs', hp⟩ := mapM_perm_map (fun i c => h.callee) hids hcs
    exact ⟨cs', hp, hcs'⟩
  · have candidates : (callCandidates cs' (es.map (rename ρ)).length).Perm
        ((callCandidates cs es.length).map (Candidate.rename ρ (Callee.rename ρ))) := by
      rw [List.length_map, ← callCandidates_rename]
      exact (hp.filter _).map _
    refine sim_choice (fun c hc => Candidate.choose_renamed h candidates hc) sim_fail
      sim_fail fun c _ => ?_
    refine (passAll_maps h es c.prototype.signature.parameters).bind fun arguments => sim_pure ?_
    rw [plain_rename, Node.rename, renameAll_eq_map, ← h.rangeOf]
    rfl

theorem armsRange_rename (h : s.Renamed ρ s') (c t e : Typed) :
    (armsRange s' (c.rename ρ) (t.rename ρ) (e.rename ρ)).outcome =
      (armsRange s c t e).outcome := by
  unfold armsRange
  simp only [diverges_rename, type_rename, range_rename, h.rangeOf]
  split
  · rfl
  · split
    · rfl
    · split
      · rfl
      · refine Traced.bind_congr (h.compare e.type t.type) fun same => rfl

/-- A block is built in the same way. -/
theorem block_rename (h : s.Renamed ρ s') (expected : Expected) (ss : List TypedStmt)
    (r : Option Typed) :
    block s' (expected.rename ρ) span (ss.map (TypedStmt.rename ρ)) (r.map (rename ρ)) =
      (block s expected span ss r).rename ρ := by
  have diverges := Node.diverges_rename (ρ := ρ) (.block ss r)
  rw [Node.rename_block] at diverges
  unfold block
  dsimp only
  rw [Expected.type?_rename, diverges]
  cases r with
  | some value =>
    simp only [Option.map_some, type_rename, range_rename]
    rw [plain_rename, Node.rename_block]
    rfl
  | none =>
    cases expected.type? with
    | none =>
      simp only [Option.map_none]
      rw [plain_rename, Node.rename_block]
      rfl
    | some t =>
      simp only [Option.map_none, Option.map_some, h.rangeOf]
      split
      · rw [plain_rename, Node.rename_block]
        rfl
      · rw [plain_rename, Node.rename_block]
        rfl

end Typed

/-! ### Statements, given their parts -/

namespace TypedStmt

/-- A definition takes the same slot. -/
theorem defineIn_sim (h : s.Renamed ρ s') (name : String) (t : Ty) (e : Option Typed) :
    (defineIn s span name t e).Sim (defineIn s' span name (t.rename ρ) (e.map (Typed.rename ρ)))
      fun r r' => r'.1 = r.1.rename ρ ∧ r.2.Renamed ρ r'.2 := by
  have range : definedRange s' (t.rename ρ) (e.map (Typed.rename ρ)) = definedRange s t e := by
    cases e <;> simp only [definedRange, Option.map_none, Option.map_some, Ty.isMutable_rename,
      h.rangeOf,
      Typed.range_rename]
  unfold defineIn
  dsimp only
  rw [Ty.isVoid_rename]
  split
  · exact Sim.bind (R := fun _ _ => False) sim_fail nofun
  · refine (maps_self _).bind fun slot => ?_
    refine (sim_ofError fun scope hscope => ?_).bind fun scope scope' hs => sim_pure ⟨?_, hs⟩
    · obtain ⟨scope', hscope', hs⟩ := h.addVariable hscope
      refine ⟨scope', hs, ?_⟩
      rw [← hscope']
      exact congrArg (fun r => s'.addVariable ⟨name, t.rename ρ, r, slot⟩ span.start) range
    · rw [rename_define]
      rfl

theorem returnType_maps (h : s.Renamed ρ s') :
    (returnType s span).Maps (returnType s' span) (Ty.rename ρ) := by
  rw [returnType, returnType, h.returnType]
  cases s.returnType? with
  | none => exact sim_fail
  | some t => exact sim_pure rfl

theorem returnExpected_rename (t : Ty) : returnExpected (t.rename ρ) =
    (returnExpected t).rename ρ := by
  rw [returnExpected, returnExpected, Ty.isVoid_rename]
  split <;> rfl

theorem retOf_maps (t : Ty) (e : Option Typed) :
    (retOf span t e).Maps (retOf span (t.rename ρ) (e.map (Typed.rename ρ))) (rename ρ) := by
  cases e with
  | none =>
    rw [Option.map_none, retOf, retOf, Ty.isVoid_rename]
    split
    · exact sim_pure (by rw [rename])
    · exact sim_fail
  | some value =>
    rw [Option.map_some, retOf, retOf, Ty.isVoid_rename, Typed.type_rename, Ty.isVoid_rename]
    split
    · exact sim_fail
    · exact sim_pure (by rw [rename])

end TypedStmt

/-! ### Whole trees -/

mutual

/-- By induction on the expression: every step of checking it is followed. -/
theorem Expr.natural_maps : ∀ (e : Expr) (expected : Expected) {s s' : Scope} {limit : Weight},
    s.Renamed ρ s' → (e.natural s limit expected).Maps (e.natural s' limit (expected.rename ρ))
      (Typed.rename ρ)
  | .literal span l, expected, s, s', limit, h => by
    rw [Expr.natural, Expr.natural]
    exact l.typed_maps h
  | .identifier span name, expected, s, s', limit, h => by
    rw [Expr.natural, Expr.natural]
    exact Typed.ofName_maps h name
  | .prefixed span .negate e, expected, s, s', limit, h
  | .prefixed span .not e, expected, s, s', limit, h => by
    rw [Expr.natural, Expr.natural]
    exact (Expr.natural_maps e .anything h).bind fun operand =>
      Typed.unary_maps h expected _ operand
  | .prefixed span .addressOf e, expected, s, s', limit, h => by
    rw [Expr.natural, Expr.natural]
    exact (Expr.natural_maps e .anything h).bind Typed.addressOf_maps
  | .prefixed span .dereference e, expected, s, s', limit, h => by
    rw [Expr.natural, Expr.natural]
    exact (Expr.natural_maps e .anything h).bind (Typed.dereference_maps h)
  | .binary span op a b, expected, s, s', limit, h => by
    rw [Expr.natural, Expr.natural]
    refine (Expr.natural_maps a .anything h).bind fun left => ?_
    refine (Expr.natural_maps b .anything h).bind fun right => ?_
    exact Typed.binary_maps h expected op left right
  | .logical span op a b, expected, s, s', limit, h => by
    rw [Expr.natural, Expr.natural]
    refine (Expr.natural_maps a (.required Builtin.bool) h).bind fun left => ?_
    refine (Typed.meet_maps h (.required Builtin.bool) left).bind fun left => ?_
    refine (Expr.natural_maps b (.required Builtin.bool) h).bind fun right => ?_
    refine (Typed.meet_maps h (.required Builtin.bool) right).bind fun right => ?_
    exact sim_pure (Typed.logical_rename op left right)
  | .assign span a b, expected, s, s', limit, h => by
    rw [Expr.natural, Expr.natural]
    refine (Expr.natural_maps a .anything h).bind fun target => ?_
    refine (Typed.assignable_maps target).bind fun type => ?_
    refine (Expr.natural_maps b (.required type) h).bind fun value => ?_
    refine (Typed.meet_maps h (.required type) value).bind fun value => ?_
    exact sim_pure (Typed.assign_rename target value)
  | .call span callee es, expected, s, s', limit, h => by
    have other : (callee.natural s limit .anything).Maps _ _ := Expr.natural_maps callee .anything h
    cases callee with
    | identifier nameSpan name =>
      rw [Expr.natural, Expr.natural]
      refine (Typed.calledFunctions_sim h name).bind fun ids ids' hids => ?_
      refine (Expr.naturals_maps es h).bind fun arguments => ?_
      exact Typed.call_maps h expected name hids arguments
    | _ =>
      rw [Expr.natural.eq_def, Expr.natural.eq_def]
      exact other.bind fun _ => sim_fail
  | .conditional span c t none, expected, s, s', limit, h => by
    rw [Expr.natural, Expr.natural]
    refine (Expr.natural_maps c (.required Builtin.bool) h).bind fun condition => ?_
    refine (Typed.meet_maps h (.required Builtin.bool) condition).bind fun condition => ?_
    refine (Block.natural_maps t (.required Builtin.void) h).bind fun thenArm => ?_
    refine sim_pure ?_
    rw [Typed.plain_rename, Node.rename]
    rfl
  | .conditional span c t (some e), expected, s, s', limit, h => by
    rw [Expr.natural, Expr.natural]
    refine (Expr.natural_maps c (.required Builtin.bool) h).bind fun condition => ?_
    refine (Typed.meet_maps h (.required Builtin.bool) condition).bind fun condition => ?_
    refine (Block.natural_maps t expected h).bind fun thenArm => ?_
    refine (Typed.meet_maps h expected thenArm).bind fun thenArm => ?_
    refine (Typed.decay_maps h thenArm).bind fun thenArm => ?_
    rw [Typed.type_rename]
    refine (Block.natural_maps e (.required thenArm.type) h).bind fun elseArm => ?_
    refine (Typed.meet_maps h (.required thenArm.type) elseArm).bind fun elseArm => ?_
    refine Maps.bind (f := id) (sim_ofTraced fun range hrange => ⟨range, rfl, ?_⟩) fun range => ?_
    · rw [Typed.armsRange_rename h, hrange]
    · refine sim_pure ?_
      rw [Typed.plain_rename, Node.rename]
      rfl
  | .block b, expected, s, s', limit, h => by
    rw [Expr.natural_block, Expr.natural_block]
    exact Block.natural_maps b expected h
  | .cast span e target, expected, s, s', limit, h => by
    rw [Expr.natural, Expr.natural]
    refine (maps_ofError (h.resolveType target)).bind fun t => ?_
    refine (Expr.natural_maps e .anything h).bind fun operand => ?_
    refine (Typed.convert_maps h t true true operand).bind fun operand => sim_pure ?_
    rw [Typed.type_rename, Typed.range_rename, Typed.plain_rename, Node.rename]

theorem Expr.naturals_maps : ∀ (es : List Expr) {s s' : Scope} {limit : Weight}, s.Renamed ρ s' →
    (Expr.naturals s limit es).Maps (Expr.naturals s' limit es) (List.map (Typed.rename ρ))
  | [], s, s', limit, _ => by
    rw [Expr.naturals, Expr.naturals]
    exact sim_pure rfl
  | e :: es, s, s', limit, h => by
    rw [Expr.naturals, Expr.naturals]
    refine (Expr.natural_maps e .anything h).bind fun first => ?_
    exact (Expr.naturals_maps es h).bind fun rest => sim_pure rfl

theorem Block.natural_maps : ∀ (b : Block) (expected : Expected) {s s' : Scope} {limit : Weight},
    s.Renamed ρ s' → (b.natural s limit expected).Maps (b.natural s' limit (expected.rename ρ))
      (Typed.rename ρ)
  | .mk span ss, expected, s, s', limit, h => by
    rw [Block.natural, Block.natural]
    refine (Stmt.checkAll_maps ss expected h.push).bind fun r => sim_pure ?_
    exact Typed.block_rename h expected r.1 r.2

/-- The statements of a block. -/
theorem Stmt.checkAll_maps : ∀ (ss : List Stmt) (expected : Expected) {s s' : Scope}
    {limit : Weight}, s.Renamed ρ s' → (Stmt.checkAll s limit expected ss).Maps
      (Stmt.checkAll s' limit (expected.rename ρ) ss)
      (Prod.map (List.map (TypedStmt.rename ρ)) (Option.map (Typed.rename ρ)))
  | [], expected, s, s', limit, _ => by
    rw [Stmt.checkAll, Stmt.checkAll]
    exact sim_pure rfl
  | st :: ss, expected, s, s', limit, h => by
    have first := Stmt.check_sim st h
    have rest : ∀ {t t' : Scope}, t.Renamed ρ t' → (Stmt.checkAll t limit expected ss).Maps
        (Stmt.checkAll t' limit (expected.rename ρ) ss)
        (Prod.map (List.map (TypedStmt.rename ρ)) (Option.map (Typed.rename ρ))) :=
      fun ht => Stmt.checkAll_maps ss expected ht
    unfold Stmt.checkAll
    rw [Expected.wantsValue_rename]
    split
    · next e _ =>
      refine (Expr.natural_maps e expected h).bind fun natural => ?_
      exact (Typed.meet_maps h expected natural).bind fun value => sim_pure rfl
    · refine first.bind ?_
      rintro ⟨first, t⟩ ⟨_, t'⟩ ⟨rfl, ht⟩
      exact (rest ht).bind fun r => sim_pure rfl

/-- Statements are checked in the same way, and leave scopes that match. -/
theorem Stmt.check_sim : ∀ (st : Stmt) {s s' : Scope}, s.Renamed ρ s' →
    (st.check s).Sim (st.check s') fun r r' => r'.1 = r.1.rename ρ ∧ r.2.Renamed ρ r'.2
  | .expr span e, s, s', h => by
    rw [Stmt.check_expr, Stmt.check_expr, h.expressionLimit]
    refine sim_statement ?_
    refine (Expr.natural_maps e (.required Builtin.void) h).bind fun value => ?_
    exact sim_pure ⟨by rw [TypedStmt.rename], h⟩
  | .define span name (some x) none, s, s', h => by
    rw [Stmt.check, Stmt.check]
    refine sim_statement ?_
    refine (maps_ofError (h.resolveType x)).bind fun t => ?_
    exact TypedStmt.defineIn_sim h name t none
  | .define span name (some x) (some e), s, s', h => by
    rw [Stmt.check, Stmt.check, h.expressionLimit]
    refine sim_statement ?_
    refine (maps_ofError (h.resolveType x)).bind fun t => ?_
    rw [Ty.bare_rename]
    refine (Expr.natural_maps e (.required t.bare) h).bind fun natural => ?_
    refine (Typed.meet_maps h (.required t.bare) natural).bind fun met => ?_
    refine (Typed.asValue_maps h met).bind fun value => ?_
    exact TypedStmt.defineIn_sim h name t (some value)
  | .define span name none none, s, s', h => by
    rw [Stmt.check, Stmt.check]
    exact sim_statement (sim_ofFault fun _ h => by cases h)
  | .define span name none (some e), s, s', h => by
    rw [Stmt.check, Stmt.check, h.expressionLimit]
    refine sim_statement ?_
    refine (Expr.natural_maps e .anything h).bind fun natural => ?_
    refine (Typed.asValue_maps h natural).bind fun value => ?_
    rw [Typed.type_rename]
    exact TypedStmt.defineIn_sim h name value.type (some value)
  | .ret span none, s, s', h => by
    rw [Stmt.check, Stmt.check]
    refine sim_statement ?_
    refine (TypedStmt.returnType_maps h).bind fun t => ?_
    exact (TypedStmt.retOf_maps t none).bind fun st => sim_pure ⟨rfl, h⟩
  | .ret span (some e), s, s', h => by
    rw [Stmt.check, Stmt.check, h.expressionLimit]
    refine sim_statement ?_
    refine (TypedStmt.returnType_maps h).bind fun t => ?_
    rw [TypedStmt.returnExpected_rename]
    refine (Expr.natural_maps e (TypedStmt.returnExpected t) h).bind fun natural => ?_
    refine (Typed.meet_maps h (TypedStmt.returnExpected t) natural).bind fun value => ?_
    exact (TypedStmt.retOf_maps t (some value)).bind fun st => sim_pure ⟨rfl, h⟩
  | .loop span c b, s, s', h => by
    rw [Stmt.check, Stmt.check, h.expressionLimit]
    refine sim_statement ?_
    refine (Expr.natural_maps c (.required Builtin.bool) h).bind fun condition => ?_
    refine (Typed.meet_maps h (.required Builtin.bool) condition).bind fun condition => ?_
    refine (Block.natural_maps b (.required Builtin.void) h).bind fun body => ?_
    exact sim_pure ⟨by rw [TypedStmt.rename], h⟩

end

end Gauge
