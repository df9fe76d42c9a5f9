import Gauge.Proofs.Module.Structs

/-!
# Proofs — the passes break no rule

Checking a module ends with the module or with an error of the program (`Module.build_safe`).  Every
function is resolved once, and all of them are before a body is checked; so in the scope of the
bodies all names make sense (`Scope.Sane`).

An error stands at the start of a part of the tree: that of a name at the item that takes it, that
of a struct that holds itself at the struct, and all others inside the declaration that is resolved
or checked.
-/

namespace Gauge

open Module

variable {L : Leeway}

/-! ### Errors of the passes -/

theorem Scope.declareStruct_plain {s : Scope} {name : String} {position : Position} {e : Error}
    (hp : L position) (h : s.declareStruct name position = .error e) : e.IsPlain L := by
  unfold declareStruct at h
  rcases bind_eq_error.mp h with h | ⟨r, -, h⟩
  · unfold registerType at h
    split at h
    · cases h
      exact ⟨rfl, hp⟩
    · cases h
  · cases h

theorem Scope.reserveFunction_plain {s : Scope} {name : String} {position : Position} {e : Error}
    (hp : L position) (h : s.reserveFunction name position = .error e) : e.IsPlain L := by
  unfold reserveFunction at h
  split at h
  · cases h
  · cases h
  · cases h
    exact ⟨rfl, hp⟩

namespace Module

/-- What is still to be done has the places of the items. -/
structure Reserved.Placed (L : Leeway) (r : Reserved) : Prop where
  structs : ∀ p ∈ r.structs, p.decl.extent.Placed L
  functions : ∀ p ∈ r.functions, p.decl.Placed L

/-- The errors of the first pass stand at declarations. -/
theorem reserve_safe : ∀ {items : List Item} {s : Scope}, (∀ i ∈ items, i.extent.Placed L) →
    Failure.Safe L (fun r => r.1.Placed L) (Failure.ofError (reserve s items))
  | [], _, _ => ⟨fun _ h => absurd h List.not_mem_nil, fun _ h => absurd h List.not_mem_nil⟩
  | .struct decl :: items, s, h => by
    obtain ⟨first, rest⟩ := List.forall_mem_cons.mp h
    rw [reserve, Failure.ofError_bind]
    refine (Failure.safe_ofError (P := fun _ => True) (fun _ _ => trivial)
      fun _ => Scope.declareStruct_plain first.1).bind ?_
    rintro ⟨ref, s'⟩ -
    rw [Failure.ofError_bind]
    refine (reserve_safe rest).bind fun r placed => ?_
    exact ⟨List.forall_mem_cons.mpr ⟨first, placed.structs⟩, placed.functions⟩
  | .function decl :: items, s, h => by
    obtain ⟨first, rest⟩ := List.forall_mem_cons.mp h
    have first := FunctionDecl.placed first
    rw [reserve, Failure.ofError_bind]
    refine (Failure.safe_ofError (P := fun _ => True) (fun _ _ => trivial)
      fun _ => Scope.reserveFunction_plain first.start).bind ?_
    rintro ⟨id, s'⟩ -
    rw [Failure.ofError_bind]
    refine (reserve_safe rest).bind fun r placed => ?_
    exact ⟨placed.structs, List.forall_mem_cons.mpr ⟨first, placed.functions⟩⟩

theorem signature_plain {s : Scope} {decl : FunctionDecl} {e : Error} (hd : decl.Placed L)
    (h : signature s decl = .error e) : e.IsPlain L := by
  rcases bind_eq_error.mp h with h | ⟨ps, -, h⟩
  · obtain ⟨p, hp, h⟩ := mem_of_mapM_eq_error h
    exact Scope.resolveType_plain (hd.parameters p hp).2.1 (map_eq_error.mp h)
  · dsimp only at h
    split at h
    · next t ht =>
      rcases bind_eq_error.mp h with h | ⟨_, -, h⟩
      · exact Scope.resolveType_plain (hd.result t ht) (map_eq_error.mp h)
      · cases h
    · cases h

theorem abi_plain {decl : FunctionDecl} {e : Error} (hd : decl.Placed L) (h : abi decl = .error e) :
    e.IsPlain L := by
  unfold abi at h
  split at h
  · cases h
  · next hb =>
    split at h
    · cases h
    · cases h
      exact ⟨rfl, hd.foreign _ _ hb⟩

end Module

/-! ### Resolving functions -/

section Resolving

variable {K : StructRef → Prop} {result : Ty} {s s' : Scope} {id : Nat}

/-- Lists of program types are compared one by one. -/
theorem Structs.compareAll_native {t : Structs} (hK : StructRef.Distinct K) :
    ∀ {as bs : List Ty}, (∀ a ∈ as, a.Native K) → (∀ b ∈ bs, b.Native K) →
      ∃ c, (t.compareAll as bs).outcome = .ok c ∧ (c = true ↔ as = bs)
  | [], [], _, _ => ⟨true, by rw [compareAll]; rfl, by simp⟩
  | [], _ :: _, _, _ | _ :: _, [], _, _ => ⟨false, by rw [compareAll] <;> simp, by simp⟩
  | a :: as, b :: bs, ha, hb => by
    obtain ⟨same, hsame, hiff⟩ := compare_native (s := t) hK (ha a (.head _)) (hb b (.head _))
    rw [compareAll, Traced.outcome_bind, hsame, ok_bind]
    cases same with
    | true =>
      rw [hiff.mp rfl, List.cons_inj_right]
      exact compareAll_native hK (fun a h => ha a (.tail _ h)) fun b h => hb b (.tail _ h)
    | false =>
      have hne : a ≠ b := fun hab => by cases hiff.mpr hab
      exact ⟨false, rfl, by simp [hne]⟩

theorem Structs.compareLists_native {t : Structs} (hK : StructRef.Distinct K) {as bs : List Ty}
    (ha : ∀ a ∈ as, a.Native K) (hb : ∀ b ∈ bs, b.Native K) :
    ∃ c, (t.compareLists as bs).outcome = .ok c ∧ (c = true ↔ as = bs) := by
  unfold compareLists
  split
  · exact compareAll_native hK ha hb
  · next hlength =>
    have hne : as ≠ bs := fun hab => hlength (hab ▸ rfl)
    exact ⟨false, rfl, by simp [hne]⟩

/-- Another function that takes the given parameters. -/
def Scope.Takes (s : Scope) (id : Nat) (ps : List Ty) (other : Nat) : Prop :=
  other ≠ id ∧ ∃ c, s.callee? other = some c ∧ c.prototype.signature.parameters = ps

/-- Signatures of types of the program can be compared, and are equal if they are the same. -/
theorem Scope.anyTakes_native (hK : StructRef.Distinct K) (hs : s.Native K result) {ps : List Ty}
    (hp : ∀ t ∈ ps, t.Native K) : ∀ ids : List Nat, ∃ b, (s.anyTakes id ps ids).outcome = .ok b ∧
      (b = true ↔ ∃ i ∈ ids, s.Takes id ps i)
  | [] => ⟨false, rfl, by simp⟩
  | i :: ids => by
    have skip (h : ¬ s.Takes id ps i) : ∃ b, (s.anyTakes id ps ids).outcome = .ok b ∧
        (b = true ↔ ∃ j ∈ i :: ids, s.Takes id ps j) := by
      obtain ⟨b, hb, hiff⟩ := anyTakes_native hK hs hp ids
      exact ⟨b, hb, by rw [hiff, List.exists_mem_cons_iff, or_iff_right h]⟩
    unfold anyTakes
    split
    · next c hc =>
      split
      · next hid => exact skip fun ht => ht.1 hid
      · next hid =>
        obtain ⟨same, hsame, hiff⟩ :=
          Structs.compareLists_native (t := s.structs) hK (hs.callee hc).parameters hp
        rw [Traced.outcome_bind, hsame, ok_bind]
        cases same with
        | true => exact ⟨true, rfl, fun _ => ⟨i, .head _, hid, c, hc, hiff.mp rfl⟩, fun _ => rfl⟩
        | false =>
          refine skip ?_
          rintro ⟨-, c', hc', hps⟩
          cases hc.symm.trans hc'
          cases hiff.mpr hps
    · next hc =>
      refine skip ?_
      rintro ⟨-, c, hc', -⟩
      cases hc.symm.trans hc'

theorem Scope.isTaken_defined (hK : StructRef.Distinct K) (hs : s.Native K result) {name : String}
    {ps : List Ty} (hp : ∀ t ∈ ps, t.Native K) : ∃ b, (s.isTaken id name ps).outcome = .ok b := by
  unfold isTaken
  split
  · next ids _ =>
    obtain ⟨b, hb, -⟩ : ∃ b, (s.anyTakes id ps ids).outcome = .ok b ∧ _ :=
      anyTakes_native hK hs hp ids
    exact ⟨b, hb⟩
  · exact ⟨_, rfl⟩

/-- The function of a number is given a signature, and all else stays. -/
structure Scope.Resolves (id : Nat) (g : Signature) (s s' : Scope) : Prop where
  frames : s'.frames = s.frames
  structs : s'.structs = s.structs
  length : s'.world.functions.length = s.world.functions.length
  other : ∀ i, i ≠ id → s'.callee? i = s.callee? i
  self : ∃ c, s'.callee? id = some c ∧ c.prototype.signature = g

/-- A function is resolved, or its parameters are taken. -/
theorem Scope.resolveFunction_safe (hK : StructRef.Distinct K) (hs : s.Native K result)
    {position : Position} {g : Signature} {abi : Abi} (hp : L position) (hg : g.Native K)
    (hid : id < s.world.functions.length) (hnew : s.callee? id = none) :
    Failure.Safe L (fun s' => s'.Native K result ∧ s.Resolves id g s')
      (s.resolveFunction id (g.type .none none) abi position).outcome := by
  have resolves : Failure.Safe L (fun s' => s.Resolves id g s')
      (s.resolveFunction id (g.type .none none) abi position).outcome := by
    obtain ⟨taken, ht⟩ : ∃ b, (s.isTaken id (s.functionName id) g.parameters).outcome = .ok b :=
      isTaken_defined hK hs hg.parameters
    simp only [resolveFunction, hnew, Signature.type]
    rw [if_neg (by simp)]
    refine Failure.Ends.traced (Failure.safe_ofTraced (P := fun _ => True) ⟨taken, ht, trivial⟩) ?_
    intro taken _
    cases taken with
    | true => exact ⟨rfl, hp⟩
    | false =>
      refine ⟨rfl, rfl, List.length_modify .., ?_, ?_⟩
      · intro i hi
        simp only [callee?, List.getElem?_modify_ne _ _ (Ne.symm hi)]
      · simp only [callee?, List.getElem?_modify_eq, List.getElem?_eq_getElem hid]
        exact ⟨_, rfl, rfl⟩
  exact (resolves.and fun s' h => hs.resolveFunction hg h).mono fun s' h => ⟨h.2, h.1⟩

end Resolving

namespace Module

variable {K : StructRef → Prop} {result : Ty} {s s' : Scope} {pending : List PendingFunction}

theorem signature_congr (h : ∀ name, s'.lookupType name = s.lookupType name)
    (decl : FunctionDecl) : signature s' decl = signature s decl := by
  unfold signature
  simp only [Scope.resolveType_congr h]

/-- The functions of a module while they are being resolved: those of `left` are still to come, and
the others have the signatures that `s`, the scope before, gives to their declarations. -/
structure Resolving (K : StructRef → Prop) (result : Ty) (pending : List PendingFunction)
    (s : Scope)
    (left : List PendingFunction) (s' : Scope) : Prop where
  native : s'.Native K result
  frames : s'.frames = s.frames
  structs : s'.structs = s.structs
  numbered : (left.map (·.id)).Nodup
  counted : ∀ p ∈ left, p.id < s'.world.functions.length
  unresolved : ∀ p ∈ left, s'.callee? p.id = none
  resolved : ∀ p ∈ pending, p ∈ left ∨
    ∃ c, s'.callee? p.id = some c ∧ signature s p.decl = .ok c.prototype.signature

/-- Before any function is resolved. -/
theorem Resolving.start {structs : List PendingStruct} {functions : List PendingFunction}
    (hs : s.Lists structs functions) (t : Structs) :
    Resolving (· ∈ structs.map (·.ref)) Builtin.void functions (s.withStructs t) functions
      (s.withStructs t) := by
  refine ⟨(hs.reserving.native _).withStructs t, rfl, rfl, hs.numbered, hs.counted, ?_,
    fun p hp => .inl hp⟩
  intro p _
  unfold Scope.callee?
  split
  · next he => cases hs.reserving.unresolved _ (List.mem_of_getElem? he)
  · rfl

/-- Once all functions are resolved they have the signatures they are declared with. -/
theorem Resolving.signatures (h : Resolving K result pending s [] s') : ∀ p ∈ pending,
      ∃ c, s'.callee? p.id = some c ∧ signature s' p.decl = .ok c.prototype.signature := by
  have same : ∀ name, s'.lookupType name = s.lookupType name := by
    intro name
    rw [Scope.lookupType, Scope.lookupType, h.frames]
  intro p hp
  rw [signature_congr same]
  exact (h.resolved p hp).resolve_left List.not_mem_nil

/-- Resolving the next function leaves the others as they are. -/
theorem Resolving.step {left : List PendingFunction} {p : PendingFunction} {g : Signature}
    {s'' : Scope} (h : Resolving K result pending s (p :: left) s') (hs : s''.Native K result)
    (hg : signature s p.decl = .ok g) (hr : s'.Resolves p.id g s'') :
    Resolving K result pending s left s'' := by
  have numbered := h.numbered
  rw [List.map_cons, List.nodup_cons] at numbered
  refine ⟨hs, hr.frames.trans h.frames, hr.structs.trans h.structs, numbered.2, ?_, ?_, ?_⟩
  · intro q hq
    rw [hr.length]
    exact h.counted q (.tail _ hq)
  · intro q hq
    refine (hr.other q.id ?_).trans (h.unresolved q (.tail _ hq))
    intro heq
    exact numbered.1 (heq ▸ List.mem_map_of_mem hq)
  · intro q hq
    rcases h.resolved q hq with hmem | ⟨c, hc, hsig⟩
    · rcases List.mem_cons.mp hmem with rfl | hmem
      · obtain ⟨c, hc, rfl⟩ := hr.self
        exact .inr ⟨c, hc, hg⟩
      · exact .inl hmem
    · -- a function that is resolved already is not the one that is resolved now
      refine .inr ⟨c, (hr.other q.id ?_).trans hc, hsig⟩
      intro heq
      rw [heq, h.unresolved p (.head _)] at hc
      cases hc

/-- The third pass resolves all functions, or finds an error. -/
theorem resolveFunctions_safe (hK : StructRef.Distinct K)
    (h : Resolving K result pending s pending s) (placed : ∀ p ∈ pending, p.decl.Placed L) :
    Failure.Safe L (Resolving K result pending s []) (resolveFunctions pending s).outcome := by
  rw [resolveFunctions, Traced.foldlM_outcome]
  refine (Failure.ends_foldlM (I := fun left s' => Resolving K result pending s left s' ∧
    ∀ p ∈ left, p.decl.Placed L) ?_ ⟨h, placed⟩).mono fun _ h => h.1
  rintro s' p left ⟨h, placed⟩
  obtain ⟨first, rest⟩ := List.forall_mem_cons.mp placed
  have same : ∀ name, s'.lookupType name = s.lookupType name := by
    intro name
    rw [Scope.lookupType, Scope.lookupType, h.frames]
  refine Failure.Ends.traced (Failure.safe_ofError (fun g hg => hg) fun _ => signature_plain first)
    fun g hg => ?_
  refine Failure.Ends.traced (Failure.safe_ofError (P := fun _ => True) (fun _ _ => trivial)
    fun _ => abi_plain first) fun abi _ => ?_
  refine (Scope.resolveFunction_safe hK h.native first.start (signature_native h.native hg)
    (h.counted p (.head _)) (h.unresolved p (.head _))).mono ?_
  rintro s'' ⟨hs'', hr⟩
  rw [signature_congr same] at hg
  exact ⟨h.step hs'' hg hr, rest⟩

end Module

/-! ### Bodies -/

namespace Scope

variable {K : StructRef → Prop} {result : Ty} {s s' : Scope}

theorem lookupType_enter (s : Scope) (t : Ty) (name : String) :
    (s.push.setReturnType t).lookupType name = s.lookupType name := rfl

theorem lookupType_addVariable {v : Variable} {position : Position}
    (h : s.addVariable v position = .ok s')
    (name : String) : s'.lookupType name = s.lookupType name := by
  unfold addVariable at h
  split at h
  · cases h
  · cases h
    rfl

/-- The scope of a function that gives back `t`, before its parameters are added. -/
theorem Sane.enter (h : s.Sane K result) {t : Ty} (ht : t.Native K) (hf : t.isFlagged = false) :
    (s.push.setReturnType t).Sane K t where
  toNative := h.toNative.enter ht hf
  structs := h.structs
  ranges := h.push.ranges.setReturnType t
  resolved := by
    intro f hf
    rcases List.mem_cons.mp hf with rfl | hf
    · exact h.push.resolved s.push.frame (.head _)
    · exact h.push.resolved f (.tail _ hf)

end Scope

namespace Module

variable {K : StructRef → Prop} {result : Ty} {decl : FunctionDecl} {scope : Scope}

theorem signature_parameters {s : Scope} {g : Signature} (h : signature s decl = .ok g) :
    (decl.parameters.mapM fun p => (s.resolveType p.type).map Ty.bare) = .ok g.parameters := by
  obtain ⟨parameters, hp, h⟩ := bind_eq_ok.mp h
  dsimp only at h
  split at h
  · obtain ⟨t, -, h⟩ := bind_eq_ok.mp h
    cases h
    exact hp
  · cases h
    exact hp

/-- A parameter has the range of its type, which `mut` does not change. -/
theorem addParameters_safe : ∀ {ps : List (Parameter × Ty)} {scope : Scope}, scope.Sane K result →
    (∀ p ∈ ps, p.1.extent.Placed L) →
    (∀ p ∈ ps, (scope.resolveType p.1.type).map Ty.bare = .ok p.2) →
    (addParameters scope ps).Safe L fun r => r.2.Sane K result
  | [], scope, hs, _, _ => Check.ends_pure hs
  | (p, t) :: ps, scope, hs, placed, h => by
    obtain ⟨first, rest⟩ := List.forall_mem_cons.mp placed
    obtain ⟨inside, hi, rfl⟩ := map_eq_ok.mp (h _ (.head _))
    have native := hs.resolveType hi
    have suits := hs.rangeOf (Ty.native_bare.mpr native)
    refine (Check.safe_ofError (fun u hu => Except.ok.inj (hu.symm.trans hi))
      fun _ => Scope.resolveType_plain first.2.1).bind ?_
    rintro _ rfl
    refine Check.ends_newSlot.bind fun slot _ => ?_
    refine (Check.safe_ofError (fun scope' ha => ha)
      fun _ => Scope.addVariable_plain first.1).bind fun scope' ha => ?_
    have same := Scope.resolveType_congr (Scope.lookupType_addVariable ha)
    refine (addParameters_safe (hs.addVariable native (Range.suits_withFlags.mp suits) ha) rest
      ?_).bind ?_
    · intro q hq
      rw [same]
      exact h q (.tail _ hq)
    · rintro ⟨arguments, scope''⟩ hs''
      exact Check.ends_pure hs''

/-- The parameters of a function that gives back what its declaration says. -/
theorem addParameters_sane (hs : scope.Sane K result)
    {g : Signature} (placed : ∀ p ∈ decl.parameters, p.extent.Placed L)
    (hd : signature scope decl = .ok g) :
    (addParameters (scope.push.setReturnType g.result) (decl.parameters.zip g.parameters)).Safe L
      fun r => r.2.Sane K g.result := by
  have native := signature_native hs.toNative hd
  refine addParameters_safe (hs.enter native.result native.value)
    (fun p hp => placed p.1 (List.of_mem_zip hp).1) ?_
  intro p hp
  rw [Scope.resolveType_congr (scope.lookupType_enter _)]
  exact eq_ok_of_mem_zip (signature_parameters hd) p hp

/-- A body breaks no rule, if its function is resolved. -/
theorem checkFunction_safe (hK : StructRef.Distinct K) (hs : scope.Sane K result)
    {callee : Callee} {body : Block} (placed : decl.Placed L)
    (hb : decl.body = .block body) (hd : signature scope decl = .ok callee.prototype.signature) :
    (checkFunction scope callee decl body).Safe L fun f => f.body.Ranged scope.structs := by
  have native := signature_native hs.toNative hd
  have hx := Expected.native_required native.result native.value
  refine ((addParameters_sane hs placed.parameters hd).and fun p r q h =>
    (addParameters_native (hs.toNative.enter native.result native.value) h).2).bind ?_
  rintro ⟨arguments, scope'⟩ ⟨hs', hw⟩
  have structs : scope'.structs = scope.structs := congrArg World.structs hw
  refine ((Block.natural_safe hK body (placed.body body hb) hs' hx).bind fun natural hn =>
    Typed.meet_safe hK hs' hn hx).bind fun body' hb => ?_
  exact Check.ends_pure (structs ▸ hb.ranged)

/-- The fourth pass breaks no rule. -/
theorem checkFunctions_safe (hK : StructRef.Distinct K) (hs : scope.Sane K result) :
    ∀ {pending : List PendingFunction}, (∀ p ∈ pending, p.decl.Placed L) →
    (∀ p ∈ pending, ∃ c, scope.callee? p.id = some c ∧
      signature scope p.decl = .ok c.prototype.signature) →
      Failure.Safe L (fun fs => ∀ f ∈ fs, f.body.Ranged scope.structs)
        (checkFunctions scope pending).outcome
  | [], _, _ => fun f hf => by cases hf
  | p :: ps, placed, h => by
    obtain ⟨first, others⟩ := List.forall_mem_cons.mp placed
    have rest := checkFunctions_safe hK hs others fun q hq => h q (.tail _ hq)
    unfold checkFunctions
    split
    · exact rest
    · next body hb =>
      obtain ⟨c, hc, hsig⟩ := h p (.head _)
      refine Failure.Ends.traced (Failure.safe_ofFault ⟨c, Scope.callee_of_some hc, rfl⟩) ?_
      rintro _ rfl
      refine Failure.Ends.traced (checkFunction_safe hK hs first hb hsig _) ?_
      rintro ⟨first, q⟩ hfirst
      refine Failure.Ends.traced rest fun rest hrest => ?_
      exact List.forall_mem_cons.mpr ⟨hfirst, hrest⟩

/-- In the scope that the bodies are checked in all names make sense. -/
theorem Resolving.sane {structs : List PendingStruct} {functions : List PendingFunction}
    {s s' : Scope} {t : Structs} (hs : s.Lists structs functions)
    (ht : t.Native (· ∈ structs.map (·.ref)))
    (h : Resolving (· ∈ structs.map (·.ref)) result functions (s.withStructs t) [] s') :
    s'.Sane (· ∈ structs.map (·.ref)) result where
  toNative := h.native
  structs := by
    rw [h.structs]
    exact ht
  ranges := by
    refine ⟨h.native.names.casts, h.native.names.overloads, fun _ _ _ _ => trivial, ?_⟩
    intro f hf b hb v hv
    rw [h.frames] at hf
    exact (hs.reserving.names.variable_mem f hf b hb v hv).elim
  resolved := by
    intro f hf b hb ids hids id hid
    rw [h.frames] at hf
    obtain ⟨p, hp, rfl⟩ := hs.called f hf b hb ids hids id hid
    obtain ⟨c, hc, -⟩ := (h.resolved p hp).resolve_left List.not_mem_nil
    rw [hc]
    rfl

/-- Checking a module breaks no rule and meets no ambiguous conversion, and in the bodies of a
module that is accepted all ranges suit their types. -/
theorem build_safe (limits : Limits) (name file : String) (tree : ModuleSyntax)
    (placed : ∀ i ∈ tree.items, i.extent.Placed L)
    (large : ∀ reserved s, reserve (Scope.standard limits).push tree.items = .ok (reserved, s) →
      Oversized s reserved.structs → L.oversized) :
    Failure.Safe L (fun r => ∀ f ∈ r.1.functions, f.body.Ranged r.2.structs)
      (build (Scope.standard limits).push name file tree).outcome := by
  refine Failure.Ends.traced ((reserve_safe placed).and fun r hr => Failure.ofError_eq_ok.mp hr) ?_
  rintro ⟨reserved, s⟩ ⟨placed, hr⟩
  have hs : s.Lists reserved.structs reserved.functions := lists_of_reserve hr
  refine Failure.Ends.traced (completeStructs_safe hs placed.structs (large reserved s hr)) ?_
  rintro _ ⟨t, rfl, laying, -⟩
  refine Failure.Ends.traced
    (resolveFunctions_safe hs.reserving.distinct (.start hs t) placed.functions) fun s' h => ?_
  refine Failure.Ends.traced
    (checkFunctions_safe hs.reserving.distinct (h.sane hs laying.native) placed.functions
      h.signatures)
    fun functions hf => ?_
  obtain ⟨declarations, hd⟩ : ∃ cs, (reserved.functions.mapM fun p => s'.callee p.id) = .ok cs := by
    refine mapM_defined fun p hp => ?_
    obtain ⟨c, hc, -⟩ := h.signatures p hp
    exact ⟨c, Scope.callee_of_some hc⟩
  exact Failure.Ends.traced (Failure.safe_ofFault (P := fun _ => True) ⟨_, hd, trivial⟩)
    fun _ _ => hf

end Module

end Gauge
