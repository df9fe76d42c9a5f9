import Gauge.Module
import Gauge.Proofs.Typed.WellTyped

/-!
# Proofs — the passes over a module

A module is checked in passes: names are reserved, structs laid out, signatures resolved and bodies
checked.  Through all of them the scope names types of the program only (`Scope.Native`): the
structs that were reserved (`Scope.Lists`) are told apart by number and by name, laying them out
changes nothing but the table of structs, and signatures are made of what is named.  So the bodies
of a module that is accepted are well typed (`Module.build_wellTyped`).
-/

namespace Gauge

open Module

/-! ### Reserving names -/

/-- A scope in which the names of a module are being reserved; `ks` are the structs so far. -/
structure Scope.Reserving (ks : List StructRef) (s : Scope) : Prop where
  names : s.Over (Ty.Native (· ∈ ks)) fun _ => False
  counted : ∀ r ∈ ks, r.id < s.structs.entries.length
  named : ∀ r ∈ ks, (s.frame.types.lookup r.name).isSome = true
  distinct : StructRef.Distinct (· ∈ ks)
  unresolved : ∀ e ∈ s.world.functions, e.prototype? = none
  outside : s.returnType? = none

namespace Scope.Reserving

variable {ks : List StructRef} {s s' : Scope}

theorem start (limits : Limits) : (Scope.standard limits).push.Reserving [] where
  names := (Over.standard limits).push.mono (fun _ => Ty.native_of_mem) fun _ h => h
  counted := fun r hr => by cases hr
  named := fun r hr => by cases hr
  distinct := fun a b ha => by cases ha
  unresolved := fun e he => by cases he
  outside := rfl

/-- A struct that is declared has a new number, and a name that no other struct has. -/
theorem declareStruct (h : s.Reserving ks) {name : String} {position : Position} {r : StructRef}
    (hd : s.declareStruct name position = .ok (r, s')) : s'.Reserving (r :: ks) := by
  have hr := hd
  obtain ⟨⟨id, s₁⟩, h₁, hr⟩ := bind_eq_ok.mp hr
  unfold Scope.registerType at h₁
  split at h₁
  · cases h₁
  · next hnew =>
    cases h₁
    cases hr
    have mono : ∀ k, k ∈ ks → k ∈ (⟨s.structs.entries.length, name⟩ : StructRef) :: ks :=
      fun k => List.mem_cons_of_mem _
    have new : ∀ k ∈ ks, k.id ≠ s.structs.entries.length ∧ k.name ≠ name := by
      intro k hk
      refine ⟨Nat.ne_of_lt (h.counted k hk), ?_⟩
      rintro rfl
      exact hnew (h.named k hk)
    refine ⟨?_, ?_, ?_, ?_, h.unresolved, h.outside⟩
    · exact (h.names.mono (fun _ ht => ht.mono mono) fun _ hv => hv).declareStruct
        (.head _) hd
    · intro k hk
      show k.id < (s.structs.entries ++ [_]).length
      rw [List.length_append]
      rcases List.mem_cons.mp hk with rfl | hk
      · exact Nat.lt_succ_self _
      · exact Nat.lt_succ_of_lt (h.counted k hk)
    · intro k hk
      show (((name, _) :: s.frame.types).lookup k.name).isSome = true
      rw [List.lookup_cons]
      split
      · rfl
      · next hne =>
        rcases List.mem_cons.mp hk with rfl | hk
        · exact absurd hne (by simp)
        · exact h.named k hk
    · intro a b ha hb hab
      rcases List.mem_cons.mp ha with rfl | ha
      · rcases List.mem_cons.mp hb with rfl | hb
        · rfl
        · rcases hab with hab | hab
          · exact absurd hab.symm (new b hb).1
          · exact absurd hab.symm (new b hb).2
      · rcases List.mem_cons.mp hb with rfl | hb
        · rcases hab with hab | hab
          · exact absurd hab (new a ha).1
          · exact absurd hab (new a ha).2
        · exact h.distinct a b ha hb hab

/-- Reserving a function changes no types. -/
theorem reserveFunction (h : s.Reserving ks) {name : String} {position : Position} {id : Nat}
    (hr : s.reserveFunction name position = .ok (id, s')) : s'.Reserving ks := by
  have names := h.names.reserveFunction hr
  have unresolved : ∀ e ∈ s.world.functions ++ [(⟨name, none⟩ : FunctionEntry)],
      e.prototype? = none := by
    intro e he
    rcases List.mem_append.mp he with he | he
    · exact h.unresolved e he
    · rw [List.mem_singleton.mp he]
  unfold Scope.reserveFunction at hr
  split at hr
  · cases hr
    exact ⟨names, h.counted, h.named, h.distinct, unresolved, h.outside⟩
  · cases hr
    exact ⟨names, h.counted, h.named, h.distinct, unresolved, h.outside⟩
  · cases hr

/-- Nothing is resolved yet, so the scope is one of a program. -/
theorem native (h : s.Reserving ks) (result : Ty) : s.Native (· ∈ ks) result where
  names := h.names.mono (fun _ ht => ht) fun _ hv => hv.elim
  functions := by
    intro e he p hp
    rw [h.unresolved e he] at hp
    cases hp
  returns := by
    intro t ht
    rw [h.outside] at ht
    cases ht

end Scope.Reserving

/-- A scope in which the given structs and functions of a module are reserved, and no others. -/
structure Scope.Lists (structs : List PendingStruct) (functions : List PendingFunction)
    (s : Scope) :
    Prop where
  reserving : s.Reserving (structs.map (·.ref))
  unique : (structs.map (·.ref)).Nodup
  spelled : ∀ p ∈ structs, p.ref.name = p.decl.name
  bound : ∀ f ∈ s.frames, ∀ b ∈ f.types, ∀ g r, b.2 = .struct g r → b.1 = r.name
  pending : ∀ e ∈ s.structs.entries, e.layout = none
  counted : ∀ p ∈ functions, p.id < s.world.functions.length
  numbered : (functions.map (·.id)).Nodup
  called : ∀ f ∈ s.frames, ∀ b ∈ f.symbols, ∀ ids, b.2 = .functions ids →
    ∀ id ∈ ids, ∃ p ∈ functions, p.id = id

namespace Scope.Lists

variable {structs : List PendingStruct} {functions : List PendingFunction} {s s' : Scope}

theorem start (limits : Limits) : (Scope.standard limits).push.Lists [] [] where
  reserving := .start limits
  unique := List.nodup_nil
  spelled := nofun
  bound := by
    intro f hf b hb g r hr
    have scalar := (Over.standard limits).push.type_mem f hf b hb
    rw [hr] at scalar
    obtain ⟨c, hc, -⟩ := Builtin.scalar_of_mem scalar
    cases hc
  pending := nofun
  counted := nofun
  numbered := List.nodup_nil
  called := by
    intro f hf b hb
    have symbols : ∀ f ∈ (Scope.standard limits).push.frames, f.symbols = [] := by
      intro f hf
      simp only [Scope.frames, Scope.push, List.mem_cons] at hf
      rcases hf with rfl | rfl | hf
      · rfl
      · rfl
      · cases hf
    rw [symbols f hf] at hb
    cases hb

/-- A struct that is declared is listed first. -/
theorem declareStruct (h : s.Lists structs functions) {decl : StructDecl} {position : Position}
    {r : StructRef} (hd : s.declareStruct decl.name position = .ok (r, s')) :
    s'.Lists (⟨r, decl⟩ :: structs) functions := by
  have reserving := h.reserving.declareStruct hd
  obtain ⟨⟨id, s₁⟩, h₁, hd⟩ := bind_eq_ok.mp hd
  unfold Scope.registerType at h₁
  split at h₁
  · cases h₁
  · cases h₁
    cases hd
    refine ⟨reserving, ?_, ?_, ?_, ?_, h.counted, h.numbered, ?_⟩
    · refine List.nodup_cons.mpr ⟨fun hmem => ?_, h.unique⟩
      exact absurd (h.reserving.counted _ hmem) (Nat.lt_irrefl _)
    · intro p hp
      rcases List.mem_cons.mp hp with rfl | hp
      · rfl
      · exact h.spelled p hp
    · intro f hf b hb g r hr
      rcases List.mem_cons.mp hf with rfl | hf
      · rcases List.mem_cons.mp hb with rfl | hb
        · cases hr
          rfl
        · exact h.bound _ (.head _) b hb g r hr
      · exact h.bound f (.tail _ hf) b hb g r hr
    · intro e he
      rcases List.mem_append.mp he with he | he
      · exact h.pending e he
      · rw [List.mem_singleton.mp he]
    · intro f hf b hb
      rcases List.mem_cons.mp hf with rfl | hf
      · exact h.called _ (.head _) b hb
      · exact h.called f (.tail _ hf) b hb

/-- A function is listed under the next number. -/
theorem reserveFunction (h : s.Lists structs functions) {decl : FunctionDecl} {position : Position}
    {id : Nat}
    (hr : s.reserveFunction decl.name position = .ok (id, s')) :
    s'.Lists structs (⟨id, decl⟩ :: functions) := by
  have reserving := h.reserving.reserveFunction hr
  -- whatever the name was bound to before, the new function is added to it
  have added : ∀ ids : List Nat, (∀ i ∈ ids, ∃ p ∈ functions, p.id = i) →
      id = s.world.functions.length →
      s' = ({ s with world := { s.world with
        functions := s.world.functions ++ [⟨decl.name, none⟩] } } : Scope).bind decl.name
          (.functions (ids ++ [id])) → s'.Lists structs (⟨id, decl⟩ :: functions) := by
    rintro ids hids rfl rfl
    refine ⟨reserving, h.unique, h.spelled, ?_, h.pending, ?_, ?_, ?_⟩
    · intro f hf
      rcases List.mem_cons.mp hf with rfl | hf
      · exact h.bound s.frame (.head _)
      · exact h.bound f (.tail _ hf)
    · intro p hp
      show p.id < (s.world.functions ++ [_]).length
      rw [List.length_append]
      rcases List.mem_cons.mp hp with rfl | hp
      · exact Nat.lt_succ_self _
      · exact Nat.lt_succ_of_lt (h.counted p hp)
    · rw [List.map_cons, List.nodup_cons]
      refine ⟨?_, h.numbered⟩
      intro hmem
      obtain ⟨p, hp, hid⟩ := List.mem_map.mp hmem
      exact absurd (h.counted p hp) (by rw [hid]; exact Nat.lt_irrefl _)
    · have before : ∀ f ∈ s.frames, ∀ b ∈ f.symbols, ∀ ids, b.2 = .functions ids → ∀ i ∈ ids,
          ∃ p ∈ (⟨s.world.functions.length, decl⟩ : PendingFunction) :: functions, p.id = i := by
        intro f hf b hb is his i hi
        obtain ⟨p, hp, hid⟩ := h.called f hf b hb is his i hi
        exact ⟨p, .tail _ hp, hid⟩
      intro f hf b hb is his i hi
      rcases List.mem_cons.mp hf with rfl | hf
      · rcases List.mem_cons.mp hb with rfl | hb
        · cases his
          rcases List.mem_append.mp hi with hi | hi
          · obtain ⟨p, hp, hid⟩ := hids i hi
            exact ⟨p, .tail _ hp, hid⟩
          · exact ⟨_, .head _, (List.mem_singleton.mp hi).symm⟩
        · exact before _ (.head _) b hb is his i hi
      · exact before f (.tail _ hf) b hb is his i hi
  unfold Scope.reserveFunction at hr
  split at hr
  · cases hr
    exact added [] nofun rfl rfl
  · next ids hids =>
    cases hr
    exact added ids (h.called _ (.head _) _ (mem_of_lookup hids) ids rfl) rfl rfl
  · cases hr

end Scope.Lists

/-- After the first pass the scope lists what was reserved. -/
theorem Module.reserve_lists : ∀ {items : List Item} {structs : List PendingStruct}
    {functions : List PendingFunction} {s s' : Scope} {reserved : Reserved},
    s.Lists structs functions → reserve s items = .ok (reserved, s') →
    s'.Lists (reserved.structs.reverse ++ structs) (reserved.functions.reverse ++ functions)
  | [], structs, functions, s, s', reserved, hs, h => by
    cases h
    exact hs
  | .struct decl :: items, structs, functions, s, s', reserved, hs, h => by
    obtain ⟨⟨ref, s₁⟩, hd, h⟩ := bind_eq_ok.mp h
    obtain ⟨⟨rest, s₂⟩, hrest, h⟩ := bind_eq_ok.mp h
    cases h
    have := reserve_lists (hs.declareStruct hd) hrest
    simpa using this
  | .function decl :: items, structs, functions, s, s', reserved, hs, h => by
    obtain ⟨⟨id, s₁⟩, hd, h⟩ := bind_eq_ok.mp h
    obtain ⟨⟨rest, s₂⟩, hrest, h⟩ := bind_eq_ok.mp h
    cases h
    have := reserve_lists (hs.reserveFunction hd) hrest
    simpa using this

/-- The order in which the names were reserved does not matter. -/
theorem Scope.Lists.reverse {structs : List PendingStruct} {functions : List PendingFunction}
    {s : Scope} (h : s.Lists structs functions) : s.Lists structs.reverse functions.reverse := by
  have mem : ∀ r, r ∈ structs.reverse.map (·.ref) ↔ r ∈ structs.map (·.ref) := by
    intro r
    rw [List.map_reverse, List.mem_reverse]
  have reserving : s.Reserving (structs.reverse.map (·.ref)) :=
    { names := h.reserving.names.mono (fun _ ht => ht.mono fun r => (mem r).mpr) fun _ hv => hv
      counted := fun r hr => h.reserving.counted r ((mem r).mp hr)
      named := fun r hr => h.reserving.named r ((mem r).mp hr)
      distinct := fun a b ha hb => h.reserving.distinct a b ((mem a).mp ha) ((mem b).mp hb)
      unresolved := h.reserving.unresolved
      outside := h.reserving.outside }
  refine ⟨reserving, ?_, ?_, h.bound, h.pending, ?_, ?_, ?_⟩
  · rw [List.map_reverse]
    exact (List.reverse_perm _).nodup_iff.mpr h.unique
  · exact fun p hp => h.spelled p (List.mem_reverse.mp hp)
  · exact fun p hp => h.counted p (List.mem_reverse.mp hp)
  · rw [List.map_reverse]
    exact (List.reverse_perm _).nodup_iff.mpr h.numbered
  · intro f hf b hb ids hids id hid
    obtain ⟨p, hp, hid⟩ := h.called f hf b hb ids hids id hid
    exact ⟨p, List.mem_reverse.mpr hp, hid⟩

namespace Module

theorem lists_of_reserve {limits : Limits} {items : List Item} {reserved : Reserved} {s : Scope}
    (h : reserve (Scope.standard limits).push items = .ok (reserved, s)) :
    s.Lists reserved.structs reserved.functions := by
  simpa using (reserve_lists (.start limits) h).reverse

/-! ### Laying out structs -/

/-- Laying out a struct changes nothing but the table of structs.  By induction on how deep structs
may lie in each other. -/
theorem completeStruct_withStructs {pending : List PendingStruct} {n : Nat} :
    ∀ {within : List String} {name : String} {s s' : Scope},
      completeStruct pending n within name s = .ok s' → ∃ table, s' = s.withStructs table := by
  induction n with
  | zero =>
    intro within name s s' h
    cases h
    exact ⟨s.structs, rfl⟩
  | succ n ih =>
    intro within name s s' h
    unfold completeStruct at h
    split at h
    · cases h
      exact ⟨s.structs, rfl⟩
    · split at h
      · cases h
        exact ⟨s.structs, rfl⟩
      · split at h
        · cases h
        · obtain ⟨⟨members, s₁⟩, hm, h⟩ := bind_eq_ok.mp h
          -- the members are laid out one after the other
          have member : ∃ table, s₁ = s.withStructs table := by
            refine foldlM_eq_ok (I := fun x => ∃ table, x.2 = s.withStructs table) ?_
              ⟨s.structs, rfl⟩ hm
            rintro ⟨ms, s₂⟩ ⟨memberName, memberType⟩ ⟨ms', s₃⟩ ⟨table, rfl⟩ hstep
            dsimp only at hstep
            split at hstep
            · obtain ⟨s₄, h₄, hstep⟩ := bind_eq_ok.mp hstep
              obtain ⟨t, -, hstep⟩ := bind_eq_ok.mp hstep
              cases hstep
              obtain ⟨table', rfl⟩ := ih h₄
              exact ⟨table', rfl⟩
            · obtain ⟨s₄, h₄, hstep⟩ := bind_eq_ok.mp hstep
              obtain ⟨t, -, hstep⟩ := bind_eq_ok.mp hstep
              cases hstep
              cases h₄
              exact ⟨table, rfl⟩
          obtain ⟨table, rfl⟩ := member
          obtain ⟨table', -, rfl⟩ := map_eq_ok.mp (Failure.ofFault_eq_ok.mp h)
          exact ⟨table', rfl⟩

theorem completeStructs_withStructs {pending : List PendingStruct} {s s' : Scope}
    (h : completeStructs pending s = .ok s') : ∃ table, s' = s.withStructs table := by
  refine foldlM_eq_ok (I := fun x => ∃ table, x = s.withStructs table) ?_ ⟨s.structs, rfl⟩ h
  rintro _ p s₁ ⟨table, rfl⟩ hstep
  obtain ⟨table', rfl⟩ := completeStruct_withStructs hstep
  exact ⟨table', rfl⟩

/-! ### Signatures -/

end Module

namespace Scope.Native

variable {K : StructRef → Prop} {result : Ty} {s s' : Scope}

theorem withStructs (h : s.Native K result) (table : Structs) :
    (s.withStructs table).Native K result :=
  ⟨h.names.withStructs table, h.functions, h.returns⟩

/-- A function that is resolved has the signature it is given; the others have what they had. -/
theorem resolveFunction (h : s.Native K result) {id : Nat} {position : Position} {g : Signature}
    {abi : Abi}
    (hg : g.Native K) (hr : (s.resolveFunction id (g.type .none none) abi position).outcome =
      .ok s') :
    s'.Native K result := by
  have names := h.names.resolveFunction hr
  unfold Scope.resolveFunction at hr
  simp only at hr
  split at hr
  · cases hr
  · split at hr
    · next hf =>
      obtain ⟨b, -, hr⟩ := Traced.bind_ok.mp hr
      cases b with
      | true => cases hr
      | false =>
        cases hr
        refine ⟨names, forall_mem_modify h.functions ?_, h.returns⟩
        intro e _ p hp
        cases hp
        cases hf
        exact hg
    · cases hr

/-- The scope of a function that gives back `t`, before its parameters are added. -/
theorem enter (h : s.Native K result) {t : Ty} (ht : t.Native K) (hf : t.isFlagged = false) :
    (s.push.setReturnType t).Native K t where
  names := h.names.push.setReturnType t
  functions := h.functions
  returns := by
    intro u hu
    cases hu
    exact ⟨rfl, ht, hf⟩

end Scope.Native

namespace Module

section Native

variable {K : StructRef → Prop} {result : Ty} {s s' : Scope}

/-- Signatures are made of types of the program. -/
theorem signature_native (hs : s.Native K result) {decl : FunctionDecl} {g : Signature}
    (h : signature s decl = .ok g) : g.Native K := by
  have bare : ∀ {x : TypeExpr} {t : Ty}, (s.resolveType x).map Ty.bare = .ok t →
      t.Native K ∧ t.isFlagged = false := by
    intro x t ht
    obtain ⟨u, hu, rfl⟩ := map_eq_ok.mp ht
    exact ⟨Ty.native_bare.mpr (hs.resolveType hu), Ty.isFlagged_bare u⟩
  obtain ⟨parameters, hp, h⟩ := bind_eq_ok.mp h
  have params : ∀ u ∈ parameters, u.Native K := by
    intro u hu
    obtain ⟨p, -, hp⟩ := mem_of_mapM_eq_ok hp u hu
    exact (bare hp).1
  dsimp only at h
  split at h
  · obtain ⟨t, ht, h⟩ := bind_eq_ok.mp h
    cases h
    exact ⟨params, (bare ht).1, (bare ht).2⟩
  · cases h
    exact ⟨params, Ty.native_void, rfl⟩

theorem resolveFunctions_native {pending : List PendingFunction} (hs : s.Native K result)
    (h : (resolveFunctions pending s).outcome = .ok s') : s'.Native K result := by
  refine Traced.foldlM_outcome_ok (I := fun s => s.Native K result) ?_ hs h
  intro s p s₁ hs hstep
  obtain ⟨g, hg, hstep⟩ := Traced.bind_ok.mp hstep
  obtain ⟨abi, -, hstep⟩ := Traced.bind_ok.mp hstep
  exact hs.resolveFunction (signature_native hs (Failure.ofError_eq_ok.mp hg)) hstep

theorem resolveFunctions_over {T : Ty → Prop} {V : Variable → Prop} {pending : List PendingFunction}
    (hs : s.Over T V) (h : (resolveFunctions pending s).outcome = .ok s') : s'.Over T V := by
  refine Traced.foldlM_outcome_ok (I := fun s => s.Over T V) ?_ hs h
  intro s p s₁ hs hstep
  obtain ⟨g, -, hstep⟩ := Traced.bind_ok.mp hstep
  obtain ⟨abi, -, hstep⟩ := Traced.bind_ok.mp hstep
  exact hs.resolveFunction hstep

end Native

/-! ### Bodies -/

section Bodies

variable {scope scope' : Scope} {p q : Progress}

/-- A parameter becomes a variable, with the range of its type in the signature. -/
theorem addParameters_cons_gives {x : Parameter} {t : Ty} {rest : List (Parameter × Ty)}
    {arguments : List Argument}
    (h : (addParameters scope ((x, t) :: rest)).Gives p (arguments, scope') q) :
    ∃ inside scope₁ arguments', scope.resolveType x.type = .ok inside ∧
      scope.addVariable ⟨x.name, inside, scope.rangeOf t, p.slots⟩ x.span.start = .ok scope₁ ∧
      (addParameters scope₁ rest).Gives { p with slots := p.slots + 1 } (arguments', scope') q ∧
      arguments = ⟨p.slots, x.name, t⟩ :: arguments' := by
  obtain ⟨inside, _, hg, h⟩ := Check.gives_bind.mp h
  obtain ⟨hi, rfl⟩ := Check.gives_ofError.mp hg
  obtain ⟨slot, _, hg, h⟩ := Check.gives_bind.mp h
  obtain ⟨rfl, rfl⟩ := Check.gives_newSlot.mp hg
  obtain ⟨scope₁, _, hg, h⟩ := Check.gives_bind.mp h
  obtain ⟨ha, rfl⟩ := Check.gives_ofError.mp hg
  obtain ⟨⟨arguments', scope₂⟩, _, hrest, h⟩ := Check.gives_bind.mp h
  obtain ⟨he, rfl⟩ := Check.gives_pure.mp h
  cases he
  exact ⟨inside, scope₁, arguments', hi, ha, hrest, rfl⟩

/-- Parameters are of types of the program, and the world stays as it is. -/
theorem addParameters_native {K : StructRef → Prop} {result : Ty} :
    ∀ {ps : List (Parameter × Ty)} {scope scope' : Scope} {arguments : List Argument}
      {p q : Progress}, scope.Native K result →
      (addParameters scope ps).Gives p (arguments, scope') q →
      scope'.Native K result ∧ scope'.world = scope.world
  | [], scope, scope', arguments, p, q, hs, h => by
    obtain ⟨he, -⟩ := Check.gives_pure.mp h
    cases he
    exact ⟨hs, rfl⟩
  | (x, t) :: rest, scope, scope', arguments, p, q, hs, h => by
    obtain ⟨inside, scope₁, arguments', hi, ha, hrest, -⟩ := addParameters_cons_gives h
    obtain ⟨hs', hw⟩ := addParameters_native (hs.addVariable (hs.resolveType hi) ha) hrest
    exact ⟨hs', hw.trans (Scope.addVariable_world ha).1⟩

/-- The body is checked behind the parameters, and has to give the result. -/
theorem checkFunction_gives {callee : Callee} {decl : FunctionDecl} {body : Block} {f : Function}
    (h : (checkFunction scope callee decl body).Gives p f q) :
    ∃ scope' m₁ natural m₂,
      (addParameters (scope.push.setReturnType f.result)
        (decl.parameters.zip callee.prototype.signature.parameters)).Gives p
          (f.arguments, scope') m₁ ∧
      (body.natural scope' scope'.expressionLimit (.required f.result)).Gives m₁ natural m₂ ∧
      (natural.meet scope' scope'.expressionLimit (.required f.result)).Gives m₂ f.body q ∧
      f.callee = callee ∧ f.result = callee.prototype.signature.result := by
  obtain ⟨⟨arguments, scope'⟩, m₁, ha, h⟩ := Check.gives_bind.mp h
  obtain ⟨body', _, hb, h⟩ := Check.gives_bind.mp h
  obtain ⟨natural, m₂, hn, hm⟩ := Check.gives_bind.mp hb
  obtain ⟨rfl, rfl⟩ := Check.gives_pure.mp h
  exact ⟨scope', m₁, natural, m₂, ha, hn, hm, rfl, rfl⟩

/-- A function is checked if it has a body. -/
def checkPending (scope : Scope) (p : PendingFunction) : Except Failure (Option Function) :=
  match p.decl.body with
  | .foreign _ _ => .ok none
  | .block body => do
    let callee ← Failure.ofFault (scope.callee p.id)
    let r ← ((checkFunction scope callee p.decl body).run ⟨.zero, 0⟩).outcome
    return some r.1

/-- Bodies are checked one by one, each on its own. -/
theorem checkFunctions_outcome : ∀ ps : List PendingFunction,
    (checkFunctions scope ps).outcome = (ps.mapM (checkPending scope)).map (List.filterMap id)
  | [] => rfl
  | p :: ps => by
    rw [checkFunctions, List.mapM_cons, checkPending]
    cases p.decl.body with
    | foreign abi span =>
      rw [checkFunctions_outcome ps, ok_bind]
      cases ps.mapM (checkPending scope) <;> rfl
    | block body =>
      simp only [Traced.outcome_bind, Traced.lift_outcome, checkFunctions_outcome ps]
      cases Failure.ofFault (scope.callee p.id) with
      | error e => rfl
      | ok c =>
        simp only [ok_bind]
        cases ((checkFunction scope c p.decl body).run ⟨.zero, 0⟩).outcome with
        | error e => rfl
        | ok r => cases ps.mapM (checkPending scope) <;> rfl

/-- What has a body is checked on its own, from no storage on, as it is declared. -/
theorem checkPending_eq_ok {p : PendingFunction} {o : Option Function} :
    checkPending scope p = .ok o ↔
      (∃ abi span, p.decl.body = .foreign abi span) ∧ o = none ∨
      ∃ callee body f q, p.decl.body = .block body ∧ scope.callee p.id = .ok callee ∧
        (checkFunction scope callee p.decl body).Gives ⟨.zero, 0⟩ f q ∧ o = some f := by
  unfold checkPending
  cases p.decl.body with
  | foreign abi span => simp [eq_comm]
  | block body =>
    simp only [bind_eq_ok, Failure.ofFault_eq_ok, Check.Gives, Prod.exists, pure_eq_ok]
    simp [eq_comm]

/-- A function that is checked in one scope is checked alike in another. -/
theorem checkPending_map {scope' : Scope} {p p' : PendingFunction} {j : Function → Function}
    (hd : p'.decl = p.decl)
    (h : ∀ callee body f q, scope.callee p.id = .ok callee →
      (checkFunction scope callee p.decl body).Gives ⟨.zero, 0⟩ f q →
      ∃ callee' q', scope'.callee p'.id = .ok callee' ∧
        (checkFunction scope' callee' p.decl body).Gives ⟨.zero, 0⟩ (j f) q')
    {o : Option Function} (ho : checkPending scope p = .ok o) :
    checkPending scope' p' = .ok (o.map j) := by
  rw [checkPending_eq_ok, hd]
  rcases checkPending_eq_ok.mp ho with ⟨foreign, rfl⟩ | ⟨callee, body, f, q, hb, hc, hf, rfl⟩
  · exact .inl ⟨foreign, rfl⟩
  · obtain ⟨callee', q', hc', hf'⟩ := h callee body f q hc hf
    exact .inr ⟨callee', body, j f, q', hb, hc', hf', rfl⟩

/-- Every function of a module was checked on its own. -/
theorem checkFunctions_mem {pending : List PendingFunction} {fs : List Function}
    (h : (checkFunctions scope pending).outcome = .ok fs) : ∀ f ∈ fs, ∃ p ∈ pending,
      ∃ callee body q, scope.callee? p.id = some callee ∧
        (checkFunction scope callee p.decl body).Gives ⟨.zero, 0⟩ f q := by
  intro f hf
  rw [checkFunctions_outcome] at h
  obtain ⟨os, hos, rfl⟩ := map_eq_ok.mp h
  obtain ⟨o, ho, rfl⟩ := List.mem_filterMap.mp hf
  obtain ⟨p, hp, hpo⟩ := mem_of_mapM_eq_ok hos _ ho
  rcases checkPending_eq_ok.mp hpo with ⟨-, ho⟩ | ⟨callee, body, _, q, -, hc, hf, ho⟩
  · cases ho
  · cases ho
    exact ⟨p, hp, callee, body, q, Scope.callee_eq_ok hc, hf⟩

end Bodies

/-- The scope that the bodies of a module are checked in names types of the program only, and no
variable. -/
theorem build_native {limits : Limits} {name file : String} {tree : ModuleSyntax} {m : Module}
    {scope : Scope}
    (h : (build (Scope.standard limits).push name file tree).outcome = .ok (m, scope)) :
    (∃ K, StructRef.Distinct K ∧ scope.Native K Builtin.void ∧
        scope.Over (Ty.Native K) fun _ => False) ∧
      ∀ f ∈ m.functions, ∃ id callee decl body q, scope.callee? id = some callee ∧
        (checkFunction scope callee decl body).Gives ⟨.zero, 0⟩ f q := by
  obtain ⟨⟨reserved, s₁⟩, h₁, h⟩ := Traced.bind_ok.mp h
  obtain ⟨s₂, h₂, h⟩ := Traced.bind_ok.mp h
  obtain ⟨s₃, h₃, h⟩ := Traced.bind_ok.mp h
  obtain ⟨functions, h₄, h⟩ := Traced.bind_ok.mp h
  obtain ⟨declarations, -, h⟩ := Traced.bind_ok.mp h
  have he := Traced.pure_ok.mp h
  cases he
  have hks := (lists_of_reserve (Failure.ofError_eq_ok.mp h₁)).reserving
  obtain ⟨table, rfl⟩ := completeStructs_withStructs h₂
  have hs := resolveFunctions_native ((hks.native Builtin.void).withStructs table) h₃
  have names := resolveFunctions_over (hks.names.withStructs table) h₃
  refine ⟨⟨_, hks.distinct, hs, names⟩, fun f hf => ?_⟩
  obtain ⟨p, -, callee, body, q, hc, hg⟩ := checkFunctions_mem h₄ f hf
  exact ⟨p.id, callee, p.decl, body, q, hc, hg⟩

end Module

/-! ### Well-typed functions -/

/-- A function whose body fits together and has the type that its signature gives back. -/
structure Function.WellTyped (s : Structs) (f : Function) : Prop where
  body : f.body.WellTyped s f.result
  type : f.body.type = f.result
  result : f.result = f.callee.prototype.signature.result
  value : f.result.isFlagged = false

/-- A function that is checked is well typed. -/
theorem Module.checkFunction_wellTyped {K : StructRef → Prop} {result : Ty} {scope : Scope}
    {callee : Callee} {decl : FunctionDecl} {body : Block} {f : Function} {id : Nat}
    {p q : Progress} (hK : StructRef.Distinct K) (hs : scope.Native K result)
    (hc : scope.callee? id = some callee)
    (h : (checkFunction scope callee decl body).Gives p f q) : f.WellTyped scope.structs := by
  obtain ⟨scope', m₁, natural, m₂, ha, hn, hm, hcallee, hres⟩ := checkFunction_gives h
  have hg := hs.callee hc
  rw [← hcallee] at hres
  have hnat : f.result.Native K := by
    rw [hres, hcallee]
    exact hg.result
  have hf : f.result.isFlagged = false := by
    rw [hres, hcallee]
    exact hg.value
  obtain ⟨hs', hw⟩ := addParameters_native (hs.enter hnat hf) ha
  have hx := Expected.native_required hnat hf
  have pn := (Block.natural_yields body hn).typed hK hs' hx
  have structs : scope'.structs = scope.structs := by
    rw [Scope.structs, hw]
    rfl
  refine ⟨structs ▸ (pn.meet hK hs'.names.casts hx hm).typed, ?_, hres, hf⟩
  cases hv : f.result.isVoid with
  | false => exact pn.required hK hs'.names.casts hnat hv hm
  | true =>
    obtain ⟨-, ⟨he, -⟩ | ⟨t, ht, hvoid, -⟩⟩ := Typed.meet_gives hm
    · have hvoid := hnat.eq_void hv hf
      rw [hvoid] at hn
      rw [he, hvoid]
      exact (Block.natural_yields _ hn).type_void
    · cases ht
      rw [hv] at hvoid
      cases hvoid

/-- The module `def pick(a: mut U8) -> U16 { while a < 9 { a = 9; } if a == 9 { return 1; } else { a
} }`. -/
def ModuleSyntax.pick : ModuleSyntax :=
  let z : Span := .null
  let a : Expr := .identifier z "a"
  let nine : Expr := .literal z (.number "9")
  let body : List Stmt :=
    [.loop z (.binary z .less a nine) (.mk z [.expr z (.assign z a nine)]),
     .expr z (.conditional z (.binary z .equals a nine)
      (.mk z [.ret z (some (.literal z (.number "1")))]) (some (.mk z [.expr z a])))]
  ⟨[.function ⟨"pick", [⟨"a", .mutable z (.named z "U8"), z⟩], some (.named z "U16"),
    .block (.mk z body), z⟩], z⟩

/-- **A module that is accepted is well typed.**  In the body of each of its functions every node
and every statement relates the types of its parts as `Typed.WellTyped` says, and the body has the
type that the function gives back. -/
theorem Module.build_wellTyped {limits : Limits} {name file : String} {tree : ModuleSyntax}
    {m : Module} {scope : Scope}
    (h : (build (Scope.standard limits).push name file tree).outcome = .ok (m, scope)) :
    ∀ f ∈ m.functions, f.WellTyped scope.structs := by
  obtain ⟨⟨K, hK, hs, -⟩, hfs⟩ := build_native h
  intro f hf
  obtain ⟨id, callee, decl, body, q, hc, hg⟩ := hfs f hf
  exact checkFunction_wellTyped hK hs hc hg

/-- The module `pick` is accepted with its one function, which is well typed. -/
theorem Module.build_wellTyped_pick :
    ∃ m scope, (build (Scope.standard .standard).push "pick" "pick.g" .pick).outcome =
      .ok (m, scope) ∧
      m.functions.length = 1 ∧ ∀ f ∈ m.functions, f.WellTyped scope.structs := by
  have run : (build (Scope.standard .standard).push "pick" "pick.g" .pick).outcome.toOption.map
      (fun r => r.1.functions.length) = some 1 := by
    decide +kernel
  obtain ⟨⟨m, scope⟩, accepted, hl⟩ := eq_ok_of_map run
  exact ⟨m, scope, accepted, hl, Module.build_wellTyped accepted⟩

end Gauge
