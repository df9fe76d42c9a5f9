import Gauge.Proofs.Module.Laid
import Gauge.Proofs.Module.Resolved
import Gauge.Proofs.Typed.Mirror

/-!
# Proofs — the order of declarations

The items of a module may be declared in any order: it is accepted in one order exactly if it is in
another, and what is built differs in the numbers of structs and functions and in the order of the
lists only (`Module.build_perm`).  `Renaming.Moves` are the other numbers: they lead from the place
of every declaration to its place in the other order.  Pass by pass, what the one module has, the
other has under these numbers.
-/

namespace Gauge

open Module

/-! ### Places -/

/-- Where the elements of a list have gone in another order. -/
theorem exists_places {α : Type} {l l' : List α} (h : l.Perm l') :
    ∃ σ : Equiv.Perm Nat, ∀ i, l'[σ i]? = l[i]? := by
  induction h with
  | nil => exact ⟨.refl _, fun _ => rfl⟩
  | cons a _ ih =>
    obtain ⟨σ, hσ⟩ := ih
    -- the head stays where it is, and the places behind it are one further on
    let shift (σ : Equiv.Perm Nat) (i : Nat) : Nat := i.casesOn 0 fun i => σ i + 1
    refine ⟨⟨shift σ, shift σ.symm, ?_, ?_⟩, ?_⟩
    · rintro (_ | i) <;> simp [shift]
    · rintro (_ | i) <;> simp [shift]
    · rintro (_ | i)
      · rfl
      · exact hσ i
  | swap a b l =>
    refine ⟨Equiv.swap 0 1, ?_⟩
    rintro (_ | _ | i)
    · rfl
    · rfl
    · rw [Equiv.swap_apply_of_ne_of_ne (by omega) (by omega)]
      rfl
  | trans _ _ ih₁ ih₂ =>
    obtain ⟨σ, hσ⟩ := ih₁
    obtain ⟨τ, hτ⟩ := ih₂
    exact ⟨σ.trans τ, fun i => (hτ (σ i)).trans (hσ i)⟩

/-- A list without repetitions that has the images of the elements of another one. -/
theorem perm_map_of_mem_iff {α β : Type} {l : List α} {l' : List β} {f : α → β}
    (hf : Function.Injective f) (hl : l.Nodup) (hl' : l'.Nodup) (image : ∀ a, f a ∈ l' ↔ a ∈ l)
    (back : ∀ b ∈ l', ∃ a, b = f a) : l'.Perm (l.map f) := by
  refine (List.perm_ext_iff_of_nodup hl' (hl.map hf)).mpr fun b => ?_
  rw [List.mem_map]
  constructor
  · intro hb
    obtain ⟨a, rfl⟩ := back b hb
    exact ⟨a, (image a).mp hb, rfl⟩
  · rintro ⟨a, ha, rfl⟩
    exact (image a).mpr ha

/-- Where names are different a declaration is found by its name. -/
theorem findIdx?_eq_some_iff_of_nodup {ds : List StructDecl} {name : String} {i : Nat}
    (hn : (ds.map (·.name)).Nodup) :
    ds.findIdx? (·.name = name) = some i ↔ ∃ d, ds[i]? = some d ∧ d.name = name := by
  rw [List.findIdx?_eq_some_iff_getElem]
  constructor
  · rintro ⟨hi, hname, -⟩
    exact ⟨ds[i], List.getElem?_eq_getElem hi, by simpa using hname⟩
  · rintro ⟨d, hd, rfl⟩
    obtain ⟨hi, rfl⟩ := List.getElem?_eq_some_iff.mp hd
    refine ⟨hi, by simp, fun j hji hj => ?_⟩
    have hi' : i < (ds.map (·.name)).length := by rwa [List.length_map]
    have hj' : j < (ds.map (·.name)).length := Nat.lt_trans hji hi'
    have same : (ds.map (·.name))[j] = (ds.map (·.name))[i] := by simpa using hj
    exact Nat.ne_of_lt hji (hn.getElem_inj_iff.mp same)

/-- The other numbers lead from the place of every declaration to its place among other items. -/
structure Renaming.Moves (ρ : Renaming) (items items' : List Item) : Prop where
  structs : ∀ i, (structsOf items')[ρ.struct i]? = (structsOf items)[i]?
  functions : ∀ i, (functionsOf items')[ρ.function i]? = (functionsOf items)[i]?

theorem Renaming.exists_moves {items items' : List Item} (h : items.Perm items') :
    ∃ ρ : Renaming, ρ.Moves items items' := by
  obtain ⟨σ, hσ⟩ := exists_places (h.filterMap Item.struct?)
  obtain ⟨τ, hτ⟩ := exists_places (h.filterMap Item.function?)
  exact ⟨⟨σ, τ⟩, hσ, hτ⟩

def Module.PendingFunction.rename (ρ : Renaming) (p : PendingFunction) : PendingFunction :=
  ⟨ρ.function p.id, p.decl⟩

theorem Module.nodup_pendingStructs (ds : List StructDecl) : (pendingStructs 0 ds).Nodup := by
  refine List.Nodup.of_map (fun p : PendingStruct => p.ref.id) ?_
  rw [pendingStructs, List.map_map]
  show (ds.zipIdx.map Prod.snd).Nodup
  rw [List.zipIdx_map_snd]
  exact List.nodup_range'

theorem Module.nodup_pendingFunctions (ds : List FunctionDecl) : (pendingFunctions 0 ds).Nodup := by
  refine List.Nodup.of_map (fun p : PendingFunction => p.id) ?_
  rw [pendingFunctions, List.map_map]
  show (ds.zipIdx.map Prod.snd).Nodup
  rw [List.zipIdx_map_snd]
  exact List.nodup_range'

namespace Renaming.Moves

variable {ρ : Renaming} {items items' : List Item} (h : ρ.Moves items items')

include h

theorem pendingStruct_iff {p : PendingStruct} : p.rename ρ ∈ pendingStructs 0 (structsOf items') ↔
    p ∈ pendingStructs 0 (structsOf items) := by
  rw [mem_pendingStructs, mem_pendingStructs]
  show (structsOf items')[ρ.struct p.ref.id]? = _ ∧ _ ↔ _
  rw [h.structs]
  rfl

theorem pendingStruct_back {p' : PendingStruct} (hp : p' ∈ pendingStructs 0 (structsOf items')) :
    ∃ p ∈ pendingStructs 0 (structsOf items), p' = p.rename ρ := by
  have same : p' = PendingStruct.rename ρ ⟨⟨ρ.struct.symm p'.ref.id, p'.ref.name⟩, p'.decl⟩ := by
    simp only [PendingStruct.rename, StructRef.rename, Equiv.apply_symm_apply]
  rw [same] at hp
  exact ⟨_, h.pendingStruct_iff.mp hp, same⟩

theorem pendingFunction_iff {p : PendingFunction} :
    p.rename ρ ∈ pendingFunctions 0 (functionsOf items') ↔
    p ∈ pendingFunctions 0 (functionsOf items) := by
  rw [mem_pendingFunctions, mem_pendingFunctions]
  show (functionsOf items')[ρ.function p.id]? = _ ↔ _
  rw [h.functions]
  rfl

theorem pendingFunction_back {p' : PendingFunction}
    (hp : p' ∈ pendingFunctions 0 (functionsOf items')) :
    ∃ p ∈ pendingFunctions 0 (functionsOf items), p' = p.rename ρ := by
  have same : p' = PendingFunction.rename ρ ⟨ρ.function.symm p'.id, p'.decl⟩ := by
    simp only [PendingFunction.rename, Equiv.apply_symm_apply]
  rw [same] at hp
  exact ⟨_, h.pendingFunction_iff.mp hp, same⟩

theorem pendingStructs_perm : (pendingStructs 0 (structsOf items')).Perm
    ((pendingStructs 0 (structsOf items)).map (PendingStruct.rename ρ)) := by
  refine perm_map_of_mem_iff ?_ (nodup_pendingStructs _) (nodup_pendingStructs _)
    (fun _ => h.pendingStruct_iff) fun p' hp => (h.pendingStruct_back hp).imp fun _ hp => hp.2
  rintro ⟨⟨i, n⟩, d⟩ ⟨⟨j, m⟩, e⟩ heq
  simp only [PendingStruct.rename, StructRef.rename, PendingStruct.mk.injEq, StructRef.mk.injEq,
    EmbeddingLike.apply_eq_iff_eq] at heq
  obtain ⟨⟨rfl, rfl⟩, rfl⟩ := heq
  rfl

theorem pendingFunctions_perm : (pendingFunctions 0 (functionsOf items')).Perm
    ((pendingFunctions 0 (functionsOf items)).map (PendingFunction.rename ρ)) := by
  refine perm_map_of_mem_iff ?_ (nodup_pendingFunctions _) (nodup_pendingFunctions _)
    (fun _ => h.pendingFunction_iff) fun p' hp => (h.pendingFunction_back hp).imp fun _ hp => hp.2
  rintro ⟨i, d⟩ ⟨j, e⟩ heq
  simp only [PendingFunction.rename, PendingFunction.mk.injEq, EmbeddingLike.apply_eq_iff_eq] at heq
  obtain ⟨rfl, rfl⟩ := heq
  rfl

/-- The functions of a name are the same ones. -/
theorem numbersOf_perm (name : String) : (numbersOf name (functionsOf items')).Perm
    ((numbersOf name (functionsOf items)).map ρ.function) := by
  refine perm_map_of_mem_iff ρ.function.injective (nodup_numbersOf _ _) (nodup_numbersOf _ _)
    (fun i => ?_) fun i _ => ⟨ρ.function.symm i, (ρ.function.apply_symm_apply i).symm⟩
  rw [mem_numbersOf, mem_numbersOf, h.functions]

/-! ### Names -/

/-- A struct is found by its name at its other place. -/
theorem findIdx_struct (named : ((structsOf items).map (·.name)).Nodup)
    (named' : ((structsOf items').map (·.name)).Nodup) (name : String) :
    (structsOf items').findIdx? (·.name = name) =
      ((structsOf items).findIdx? (·.name = name)).map ρ.struct := by
  refine Option.ext fun j => ?_
  rw [findIdx?_eq_some_iff_of_nodup named', Option.map_eq_some_iff]
  constructor
  · rintro ⟨d, hd, hname⟩
    refine ⟨ρ.struct.symm j, (findIdx?_eq_some_iff_of_nodup named).mpr ⟨d, ?_, hname⟩,
      ρ.struct.apply_symm_apply j⟩
    rw [← h.structs, ρ.struct.apply_symm_apply, hd]
  · rintro ⟨i, hi, rfl⟩
    rw [h.structs]
    exact (findIdx?_eq_some_iff_of_nodup named).mp hi

end Renaming.Moves

/-- A type that is not declared in the module has no number in it. -/
theorem Scope.standard_rename (ρ : Renaming) (limits : Limits) (name : String) :
    ((Scope.standard limits).frame.types.lookup name).map (Ty.rename ρ) =
      (Scope.standard limits).frame.types.lookup name := by
  cases ht : (Scope.standard limits).frame.types.lookup name with
  | none => rfl
  | some t =>
    have mem : t ∈ Builtin.all :=
      (Over.standard limits).type_mem _ (.head _) _ (mem_of_lookup ht)
    obtain ⟨c, rfl, -⟩ := Builtin.scalar_of_mem mem
    rfl

namespace Scope.Reserves

variable {ρ : Renaming} {items items' : List Item} {limits : Limits} {s s' : Scope}
  (moves : ρ.Moves items items') (h : s.Reserves limits (structsOf items) (functionsOf items))
  (h' : s'.Reserves limits (structsOf items') (functionsOf items'))

include moves h h'

/-- Names of types stand for the same types under other numbers. -/
theorem lookupType_moved (name : String) : s'.lookupType name =
    (s.lookupType name).map (Ty.rename ρ) := by
  have own : s'.frame.types.lookup name = (s.frame.types.lookup name).map (Ty.rename ρ) := by
    rw [h.types, h'.types, moves.findIdx_struct h.named h'.named]
    cases (structsOf items).findIdx? (·.name = name) <;> rfl
  rw [Scope.lookupType, Scope.lookupType, frames, frames, h.outer, h'.outer]
  simp only [List.findSome?_cons, List.findSome?_nil, own]
  cases s.frame.types.lookup name with
  | some t => rfl
  | none =>
    have outer := Scope.standard_rename ρ limits name
    revert outer
    cases (Scope.standard limits).frame.types.lookup name with
    | none => exact fun _ => rfl
    | some t => exact fun outer => outer.symm

theorem symbol_moved (name : String) :
    Option.Rel (Binding.Renamed ρ) (s.frame.symbols.lookup name)
    (s'.frame.symbols.lookup name) := by
  have perm := moves.numbersOf_perm name
  rw [h.symbols, h'.symbols]
  cases hn : numbersOf name (functionsOf items) with
  | nil =>
    rw [hn, List.map_nil] at perm
    rw [perm.eq_nil]
    exact .none
  | cons i is =>
    cases hn' : numbersOf name (functionsOf items') with
    | nil =>
      rw [hn, hn'] at perm
      cases perm.symm.eq_nil
    | cons j js =>
      rw [hn, hn'] at perm
      exact .some (.functions perm)

theorem lookupSymbol_moved (name : String) :
    Option.Rel (Binding.Renamed ρ) (s.lookupSymbol name) (s'.lookupSymbol name) := by
  have own := symbol_moved moves h h' name
  rw [Scope.lookupSymbol, Scope.lookupSymbol, frames, frames, h.outer, h'.outer]
  simp only [List.findSome?_cons, List.findSome?_nil]
  generalize s.frame.symbols.lookup name = b, s'.frame.symbols.lookup name = b' at own
  cases own with
  | some hb => exact .some hb
  | none => exact .none

end Scope.Reserves

/-! ### Structs -/

namespace Module

variable {ρ : Renaming} {items items' : List Item} {limits : Limits} {s s' : Scope} {t t' : Structs}

/-- What stands in the table after the pass over the structs. -/
theorem Laying.entry {ds : List StructDecl} {fs : List FunctionDecl} (hr : s.Reserves limits ds fs)
    (h : Laying s (pendingStructs 0 ds) t) (ready : ∀ p ∈ pendingStructs 0 ds,
      t.isReady p.ref = true)
    {i : Nat} {d : StructDecl} (hd : ds[i]? = some d) :
    ∃ l, t.entries[i]? = some ⟨d.name, some l, none⟩ ∧
      Laid s (pendingStructs 0 ds) ⟨⟨i, d.name⟩, d⟩ l := by
  have mem : (⟨⟨i, d.name⟩, d⟩ : PendingStruct) ∈ pendingStructs 0 ds :=
    mem_pendingStructs.mpr ⟨hd, rfl⟩
  obtain ⟨l, hl⟩ := Option.isSome_iff_exists.mp (ready _ mem)
  obtain ⟨⟨name, layout, fingerprint⟩, he, rfl⟩ := Option.bind_eq_some_iff.mp hl
  have he : t.entries[i]? = _ := he
  have label := congrArg (·[i]?) h.labels
  simp only [hr.entries, List.getElem?_map, he, hd, Option.map_some, StructEntry.label,
    Option.some.injEq, Prod.mk.injEq] at label
  obtain ⟨rfl, rfl⟩ := label
  exact ⟨l, he, h.laid _ mem l hl⟩

/-- **Structs are laid out the same in another order.** -/
theorem structs_moved (moves : ρ.Moves items items')
    (h : s.Reserves limits (structsOf items) (functionsOf items))
    (h' : s'.Reserves limits (structsOf items') (functionsOf items'))
    (lists' : s'.Lists (pendingStructs 0 (structsOf items'))
      (pendingFunctions 0 (functionsOf items')))
    (ht : Laying s (pendingStructs 0 (structsOf items)) t)
    (ready : ∀ p ∈ pendingStructs 0 (structsOf items), t.isReady p.ref = true)
    (ht' : Laying s' (pendingStructs 0 (structsOf items')) t')
    (ready' : ∀ p ∈ pendingStructs 0 (structsOf items'), t'.isReady p.ref = true) :
    Structs.Renamed ρ t t' := by
  have length : t.entries.length = (structsOf items).length := by
    rw [ht.length, h.entries, List.length_map]
  have length' : t'.entries.length = (structsOf items').length := by
    rw [ht'.length, h'.entries, List.length_map]
  refine ⟨?_, fun i => ?_⟩
  · rw [length, length']
    simpa [pendingStructs] using moves.pendingStructs_perm.length_eq
  · cases hd : (structsOf items)[i]? with
    | none =>
      have none : t.entries[i]? = none := by
        rw [List.getElem?_eq_none_iff] at hd ⊢
        rwa [length]
      have none' : t'.entries[ρ.struct i]? = Option.none := by
        rw [← moves.structs, List.getElem?_eq_none_iff] at hd
        rw [List.getElem?_eq_none_iff]
        rwa [length']
      rw [none, none']
      rfl
    | some d =>
      obtain ⟨l, he, hl⟩ := ht.entry h ready hd
      obtain ⟨l', he', hl'⟩ := ht'.entry h' ready' ((moves.structs i).trans hd)
      -- the layout from the one order fits the struct in the other, which has only one layout
      have image := hl.rename (h.lookupType_moved moves h') fun _ => moves.pendingStruct_back
      obtain rfl := hl'.unique lists' image
      rw [he, he']
      rfl

/-! ### Functions -/

/-- Signatures are resolved to the same types. -/
theorem signature_moved (types : ∀ name, s'.lookupType name = (s.lookupType name).map (Ty.rename ρ))
    {decl : FunctionDecl} {g : Signature} (h : signature s decl = .ok g) :
    signature s' decl = .ok (g.rename ρ) := by
  have bare : ∀ {x : TypeExpr} {u : Ty}, (s.resolveType x).map Ty.bare = .ok u →
      (s'.resolveType x).map Ty.bare = .ok (u.rename ρ) := by
    intro x u hu
    obtain ⟨v, hv, rfl⟩ := map_eq_ok.mp hu
    rw [Scope.resolveType_rename types, hv, ← Ty.bare_rename]
    rfl
  obtain ⟨ps, hps, h⟩ := bind_eq_ok.mp h
  have parameters : ((decl.parameters.map id).mapM fun p => (s'.resolveType p.type).map Ty.bare) =
      .ok (ps.map (Ty.rename ρ)) :=
        mapM_map_eq_ok (i := id) (j := Ty.rename ρ) (fun p u hu => bare hu) hps
  rw [List.map_id] at parameters
  unfold signature
  rw [parameters, ok_bind]
  dsimp only at h ⊢
  cases hr : decl.result with
  | none =>
    rw [hr] at h
    cases h
    rfl
  | some x =>
    rw [hr] at h
    obtain ⟨u, hu, h⟩ := bind_eq_ok.mp h
    cases h
    dsimp only
    rw [bare hu]
    rfl

theorem Declared.moved (types : ∀ name, s'.lookupType name = (s.lookupType name).map (Ty.rename ρ))
    {p : PendingFunction} {c : Callee} (h : Declared s p c) :
    Declared s' (p.rename ρ) (c.rename ρ) := by
  obtain ⟨g, a, hg, ha, rfl⟩ := h
  exact ⟨g.rename ρ, a, signature_moved types hg, ha, rfl⟩

theorem Declared.unique {p : PendingFunction} {c c' : Callee} (h : Declared s p c)
    (h' : Declared s p c') :
    c = c' := by
  obtain ⟨g, a, hg, ha, rfl⟩ := h
  obtain ⟨g', a', hg', ha', rfl⟩ := h'
  cases hg.symm.trans hg'
  cases ha.symm.trans ha'
  rfl

/-- Functions that can be told apart can be told apart in another order. -/
theorem Told.moved (moves : ρ.Moves items items')
    (types : ∀ name, s'.lookupType name = (s.lookupType name).map (Ty.rename ρ))
    (declared : ∀ p ∈ pendingFunctions 0 (functionsOf items), ∃ c, Declared s p c)
    (h : Told s (pendingFunctions 0 (functionsOf items))) :
    Told s' (pendingFunctions 0 (functionsOf items')) := by
  intro p' hp' q' hq' hne hname g' k' hg' hk' heq
  obtain ⟨p, hp, rfl⟩ := moves.pendingFunction_back hp'
  obtain ⟨q, hq, rfl⟩ := moves.pendingFunction_back hq'
  obtain ⟨-, g, -, hg, -⟩ := declared p hp
  obtain ⟨-, k, -, hk, -⟩ := declared q hq
  cases hg'.symm.trans (signature_moved types hg)
  cases hk'.symm.trans (signature_moved types hk)
  refine h p hp q hq (fun hid => hne ?_) hname g k hg hk ?_
  · exact congrArg ρ.function hid
  · exact Ty.rename_injective.list_map heq

/-- A function that is resolved in the one scope is resolved in the other. -/
theorem callee_moved (moves : ρ.Moves items items') {K K' : StructRef → Prop} {result result' : Ty}
    {scope scope' : Scope} (h : Resolved K result (functionsOf items) s [] scope)
    (h' : Resolved K' result' (functionsOf items') s' [] scope')
    (types : ∀ name, s'.lookupType name = (s.lookupType name).map (Ty.rename ρ)) (i : Nat) :
    scope'.callee? (ρ.function i) = (scope.callee? i).map (Callee.rename ρ) := by
  have none : ∀ {scope : Scope} {j : Nat}, scope.world.functions.length ≤ j →
      scope.callee? j = none := by
    intro scope j hj
    rw [Scope.callee?, List.getElem?_eq_none_iff.mpr hj]
  cases hd : (functionsOf items)[i]? with
  | none =>
    have hi := List.getElem?_eq_none_iff.mp hd
    have hi' := List.getElem?_eq_none_iff.mp ((moves.functions i).trans hd)
    rw [← h.length] at hi
    rw [← h'.length] at hi'
    rw [none hi, none hi']
    rfl
  | some d =>
    have mem : (⟨i, d⟩ : PendingFunction) ∈ pendingFunctions 0 (functionsOf items) :=
      mem_pendingFunctions.mpr hd
    obtain ⟨c, hc, declared⟩ := (h.declared _ mem).resolve_left List.not_mem_nil
    obtain ⟨c', hc', declared'⟩ :=
      (h'.declared _ (moves.pendingFunction_iff.mpr mem)).resolve_left List.not_mem_nil
    obtain rfl := declared'.unique (declared.moved types)
    rw [hc]
    exact hc'

/-- The scopes that the bodies are checked in differ in the numbers only. -/
theorem scopes_moved (moves : ρ.Moves items items')
    (h : s.Reserves limits (structsOf items) (functionsOf items))
    (h' : s'.Reserves limits (structsOf items') (functionsOf items'))
    {K K' : StructRef → Prop} {result result' : Ty} {scope scope' : Scope}
    (resolved : Resolved K result (functionsOf items) (s.withStructs t) [] scope)
    (resolved' : Resolved K' result' (functionsOf items') (s'.withStructs t') [] scope')
    (structs : Structs.Renamed ρ t t') : Scope.Renamed ρ scope scope' := by
  have types := h.lookupType_moved moves h'
  have symbols := h.lookupSymbol_moved moves h'
  have callees := callee_moved moves resolved resolved' types
  obtain ⟨fs, rfl⟩ : ∃ fs, scope = { s.withStructs t with world := { (s.withStructs t).world with
    functions := fs } } := ⟨_, resolved.rest⟩
  obtain ⟨fs', rfl⟩ : ∃ fs, scope' = { s'.withStructs t' with world :=
    { (s'.withStructs t').world with
    functions := fs } } := ⟨_, resolved'.rest⟩
  exact {
    structs := structs
    casts := ⟨h.casts, h'.casts⟩
    overloads := ⟨h.overloads, h'.overloads⟩
    limits := h'.limits.trans h.limits.symm
    types := types
    symbols := symbols
    taken := fun name => by
      have own := h.symbol_moved moves h' name
      show (s'.frame.symbols.lookup name).isSome = (s.frame.symbols.lookup name).isSome
      generalize s.frame.symbols.lookup name = b, s'.frame.symbols.lookup name = b' at own
      cases own <;> rfl
    callees := callees
    returnType := by
      show s'.returnType? = s.returnType?.map _
      rw [Scope.returnType?, Scope.returnType?, Scope.frames, Scope.frames, h.outer, h'.outer]
      simp only [List.findSome?_cons, h.returnType, h'.returnType]
      rfl }

end Module

/-! ### Bodies -/

def Argument.rename (ρ : Renaming) (a : Argument) : Argument := { a with type := a.type.rename ρ }

/-- The function with other numbers for structs and functions. -/
def Function.rename (ρ : Renaming) (f : Function) : Function :=
  ⟨f.callee.rename ρ, f.arguments.map (Argument.rename ρ), f.result.rename ρ,
    f.body.rename ρ, f.span⟩

namespace Module

variable {ρ : Renaming} {scope scope' : Scope}

/-- Parameters have the same slots. -/
theorem addParameters_sim : ∀ (ps : List (Parameter × Ty)) {s s' : Scope}, s.Renamed ρ s' →
    (addParameters s ps).Sim (addParameters s' (ps.map (Prod.map id (Ty.rename ρ))))
      fun r r' => r'.1 = r.1.map (Argument.rename ρ) ∧ r.2.Renamed ρ r'.2
  | [], s, s', h => Check.sim_pure ⟨rfl, h⟩
  | (p, t) :: ps, s, s', h => by
    rw [List.map_cons, Prod.map_apply, id_eq, addParameters, addParameters, h.rangeOf]
    refine (Check.maps_ofError (h.resolveType p.type)).bind fun inside => ?_
    refine (Check.maps_self _).bind fun slot => ?_
    refine Check.Sim.bind (R := Scope.Renamed ρ) (Check.sim_ofError fun s₁ h₁ => ?_)
      fun s₁ s₁' h₁ => ?_
    · obtain ⟨s₁', h₁', renamed⟩ := h.addVariable h₁
      exact ⟨s₁', renamed, h₁'⟩
    · refine (addParameters_sim ps h₁).bind ?_
      rintro ⟨arguments, s₂⟩ ⟨_, s₂'⟩ ⟨rfl, h₂⟩
      exact Check.sim_pure ⟨rfl, h₂⟩

/-- A function is checked in the same way. -/
theorem checkFunction_maps (h : scope.Renamed ρ scope') (c : Callee) (decl : FunctionDecl)
    (body : Block) :
    (checkFunction scope c decl body).Maps (checkFunction scope' (c.rename ρ) decl body)
      (Function.rename ρ) := by
  have zip : decl.parameters.zip (c.rename ρ).prototype.signature.parameters =
      (decl.parameters.zip c.prototype.signature.parameters).map (Prod.map id (Ty.rename ρ)) := by
    rw [← List.zip_map, List.map_id]
    rfl
  rw [checkFunction, checkFunction, zip]
  refine (addParameters_sim _ (h.push.setReturnType c.prototype.signature.result)).bind ?_
  rintro ⟨arguments, s⟩ ⟨_, s'⟩ ⟨rfl, hs⟩
  refine Check.Maps.bind (f := Typed.rename ρ) ?_ fun body => Check.sim_pure rfl
  rw [hs.expressionLimit]
  refine (Block.natural_maps body (.required c.prototype.signature.result) hs).bind
    fun natural => ?_
  exact Typed.meet_maps hs (.required c.prototype.signature.result) natural

/-- A function is found under its new number. -/
theorem checkPending_moved (h : scope.Renamed ρ scope') {p : PendingFunction} {o : Option Function}
    (ho : checkPending scope p = .ok o) :
    checkPending scope' (p.rename ρ) = .ok (o.map (Function.rename ρ)) := by
  have decl : (p.rename ρ).decl = p.decl := rfl
  refine checkPending_map decl (fun c body f q hc hf => ?_) ho
  exact ⟨c.rename ρ, _, h.callee hc, (checkFunction_maps h c p.decl body).gives hf⟩

end Module

/-! ### Passes -/

/-- What a function is known by from outside: its name and symbol, its type as it is written, and
how it is called. -/
def Callee.interface (c : Callee) : String × String × String × Abi :=
  (c.name, c.symbol, c.prototype.type.text, c.prototype.abi)

/-- From outside a function is known without its number. -/
theorem Callee.interface_rename (ρ : Renaming) (c : Callee) :
    (c.rename ρ).interface = c.interface := by
  have symbol : (c.rename ρ).symbol = c.symbol := by
    have mangled := Ty.mangledAll_renameAll (ρ := ρ) c.prototype.signature.parameters
    rw [Ty.renameAll_eq_map] at mangled
    unfold symbol Signature.symbol
    simp only [Callee.rename, Prototype.rename, Signature.rename, mangled]
  have type : (c.rename ρ).prototype.type = c.prototype.type.rename ρ := by
    simp only [Prototype.type, Signature.type, Callee.rename, Prototype.rename, Signature.rename,
      Ty.rename,
      Ty.renameAll_eq_map]
  rw [interface, interface, symbol, type, Ty.text_rename]
  rfl

/-- The structs and functions of a module with other numbers and in another order.  The scopes hold
the layouts of the structs. -/
structure Module.Renamed (ρ : Renaming) (m : Module) (scope : Scope) (m' : Module)
    (scope' : Scope) :
    Prop where
  structs : m'.structs.Perm (m.structs.map (StructRef.rename ρ))
  layouts : ∀ r ∈ m.structs,
    scope'.structs.layout? (r.rename ρ) = (scope.structs.layout? r).map (Layout.rename ρ)
  declarations : m'.declarations.Perm (m.declarations.map (Callee.rename ρ))
  interfaces : (m'.declarations.map Callee.interface).Perm (m.declarations.map Callee.interface)
  functions : m'.functions.Perm (m.functions.map (Function.rename ρ))

namespace Module

variable {ρ : Renaming} {items items' : List Item} {limits : Limits} {s s' : Scope} {t t' : Structs}

/-- The first pass accepts the items in the other order. -/
theorem reserve_moved (moves : ρ.Moves items items')
    (h : s.Reserves limits (structsOf items) (functionsOf items)) :
    ∃ s', reserve (Scope.standard limits).push items' = .ok (⟨pendingStructs 0 (structsOf items'),
        pendingFunctions 0 (functionsOf items')⟩, s') ∧
      s'.Reserves limits (structsOf items') (functionsOf items') ∧
      s'.Lists (pendingStructs 0 (structsOf items')) (pendingFunctions 0 (functionsOf items')) := by
  have named : ((structsOf items').map (·.name)).Nodup := by
    have perm := moves.pendingStructs_perm.map fun p => p.decl.name
    rw [List.map_map] at perm
    have perm : ((pendingStructs 0 (structsOf items')).map (·.decl.name)).Perm
      ((pendingStructs 0 (structsOf items)).map (·.decl.name)) := perm
    rw [map_name_pendingStructs, map_name_pendingStructs] at perm
    exact perm.nodup_iff.mpr h.named
  obtain ⟨⟨reserved, s'⟩, hr⟩ := reserve_defined (.start limits) named
  obtain ⟨rfl, h'⟩ := reserve_reserves hr
  exact ⟨s', hr, h', lists_of_reserve hr⟩

/-- The second pass gives the same layouts. -/
theorem completeStructs_moved (moves : ρ.Moves items items')
    (h : s.Reserves limits (structsOf items) (functionsOf items))
    (h' : s'.Reserves limits (structsOf items') (functionsOf items'))
    (lists : s.Lists (pendingStructs 0 (structsOf items)) (pendingFunctions 0 (functionsOf items)))
    (lists' : s'.Lists (pendingStructs 0 (structsOf items'))
      (pendingFunctions 0 (functionsOf items')))
    (ht : completeStructs (pendingStructs 0 (structsOf items)) s = .ok (s.withStructs t)) :
    ∃ t', completeStructs (pendingStructs 0 (structsOf items')) s' = .ok (s'.withStructs t') ∧
      Structs.Renamed ρ t t' := by
  obtain ⟨laying, ready⟩ := completeStructs_laid lists ht
  obtain ⟨t', ht'⟩ := completeStructs_defined lists' fun p' hp' => by
    obtain ⟨p, hp, rfl⟩ := moves.pendingStruct_back hp'
    obtain ⟨l, hl⟩ := Option.isSome_iff_exists.mp (ready p hp)
    exact ⟨_, (laying.laid p hp l hl).rename (h.lookupType_moved moves h')
      fun _ => moves.pendingStruct_back⟩
  obtain ⟨laying', ready'⟩ := completeStructs_laid lists' ht'
  exact ⟨t', ht', structs_moved moves h h' lists' laying ready laying' ready'⟩

/-- The third pass gives the same signatures. -/
theorem resolveFunctions_moved (moves : ρ.Moves items items')
    (h : s.Reserves limits (structsOf items) (functionsOf items))
    (h' : s'.Reserves limits (structsOf items') (functionsOf items'))
    (lists' : s'.Lists (pendingStructs 0 (structsOf items'))
      (pendingFunctions 0 (functionsOf items')))
    (structs : Structs.Renamed ρ t t') {K : StructRef → Prop} {result : Ty} {scope : Scope}
    (resolved : Resolved K result (functionsOf items) (s.withStructs t) [] scope)
    (told : Told (s.withStructs t) (pendingFunctions 0 (functionsOf items))) :
    ∃ scope', (resolveFunctions (pendingFunctions 0 (functionsOf items'))
      (s'.withStructs t')).outcome =
      .ok scope' ∧ Scope.Renamed ρ scope scope' := by
  have types : ∀ name, (s'.withStructs t').lookupType name =
      ((s.withStructs t).lookupType name).map (Ty.rename ρ) := by
    have types := h.lookupType_moved moves h'
    exact types
  have declared : ∀ p ∈ pendingFunctions 0 (functionsOf items), ∃ c,
      Declared (s.withStructs t) p c := by
    intro p hp
    obtain ⟨c, -, hc⟩ := (resolved.declared p hp).resolve_left List.not_mem_nil
    exact ⟨c, hc⟩
  have distinct := lists'.reserving.distinct
  obtain ⟨scope', hr⟩ := resolve_fold_defined distinct
    (fun p' hp' => by
      obtain ⟨p, hp, rfl⟩ := moves.pendingFunction_back hp'
      obtain ⟨c, hc⟩ := declared p hp
      exact ⟨_, hc.moved types⟩)
    (told.moved moves types declared) (fun _ hp => hp) (.start t' lists' h')
  have resolved' := resolved_of_fold distinct (fun _ hp => hp) (.start t' lists' h') hr
  exact ⟨scope', by rw [resolveFunctions_eq, hr],
    scopes_moved moves h h' resolved resolved' structs⟩

/-- **A module that is accepted is accepted in another order**, with all that is built of it. -/
theorem Built.moved {tree tree' : ModuleSyntax} {m : Module} {scope : Scope} {reserved : Reserved}
    (moves : ρ.Moves tree.items tree'.items) (h : Built limits tree m scope reserved s t)
    (name file : String) : ∃ m' scope',
      (build (Scope.standard limits).push name file tree').outcome = .ok (m', scope') ∧
        Module.Renamed ρ m scope m' scope' := by
  have reserves := h.reserves
  have resolved := h.allResolved
  have told := h.told
  obtain rfl := h.reserved_eq
  obtain ⟨s', reserve', reserves', lists'⟩ := reserve_moved moves reserves
  obtain ⟨t', complete', structs⟩ :=
    completeStructs_moved moves reserves reserves' h.lists lists' h.complete
  obtain ⟨scope', resolve', scopes⟩ :=
    resolveFunctions_moved moves reserves reserves' lists' structs resolved told
  -- the scope is the same but for the numbers, so every body is checked to the same tree
  have check := h.check
  rw [checkFunctions_outcome] at check
  obtain ⟨functions, check', sameFunctions⟩ := filterMapM_perm_map
    (fun p o ho => checkPending_moved scopes ho) moves.pendingFunctions_perm check
  rw [← checkFunctions_outcome] at check'
  obtain ⟨declarations, declarations', sameDeclarations⟩ := mapM_perm_map
    (g := fun p : PendingFunction => scope'.callee p.id) (fun _ _ hc => scopes.callee hc)
    moves.pendingFunctions_perm h.declarations
  refine ⟨⟨name, file, declarations, functions,
    (pendingStructs 0 (structsOf tree'.items)).map (·.ref)⟩,
    scope', ?_, ?_, fun r _ => scopes.structs.layout? r, sameDeclarations, ?_, sameFunctions⟩
  · refine Traced.bind_ok.mpr ⟨_, Failure.ofError_eq_ok.mpr reserve', ?_⟩
    refine Traced.bind_ok.mpr ⟨_, complete', ?_⟩
    refine Traced.bind_ok.mpr ⟨_, resolve', ?_⟩
    refine Traced.bind_ok.mpr ⟨_, check', ?_⟩
    exact Traced.bind_ok.mpr ⟨_, Failure.ofFault_eq_ok.mpr declarations', rfl⟩
  · rw [h.structs, List.map_map]
    have perm := moves.pendingStructs_perm.map fun p => p.ref
    rwa [List.map_map] at perm
  · have perm := sameDeclarations.map Callee.interface
    rw [List.map_map] at perm
    rwa [show Callee.interface ∘ Callee.rename ρ = Callee.interface from
      funext (Callee.interface_rename ρ)] at perm

/-- **The order of declarations does not matter**: a module is accepted in every order or in none,
and what is built of it differs in the numbers of structs and functions only, which follow the
declarations. -/
theorem build_perm (limits : Limits) (name file : String) {tree tree' : ModuleSyntax}
    (perm : tree.items.Perm tree'.items) :
    ((∃ r, (build (Scope.standard limits).push name file tree).outcome = .ok r) ↔
      ∃ r, (build (Scope.standard limits).push name file tree').outcome = .ok r) ∧
    ∀ m scope m' scope', (build (Scope.standard limits).push name file tree).outcome =
      .ok (m, scope) →
      (build (Scope.standard limits).push name file tree').outcome = .ok (m', scope') →
      ∃ ρ : Renaming, ρ.Moves tree.items tree'.items ∧ Module.Renamed ρ m scope m' scope' := by
  -- one order after the other, either way round
  have follows : ∀ {tree tree' : ModuleSyntax}, tree.items.Perm tree'.items →
    ∀ {m : Module} {scope : Scope},
      (build (Scope.standard limits).push name file tree).outcome = .ok (m, scope) →
      ∃ (ρ : Renaming) (m' : Module) (scope' : Scope), ρ.Moves tree.items tree'.items ∧
        (build (Scope.standard limits).push name file tree').outcome = .ok (m', scope') ∧
        Module.Renamed ρ m scope m' scope' := by
    intro tree tree' perm m scope h
    obtain ⟨ρ, moves⟩ := Renaming.exists_moves perm
    obtain ⟨_, _, _, built⟩ := built_of_build h
    obtain ⟨m', scope', h', renamed⟩ := built.moved moves name file
    exact ⟨ρ, m', scope', moves, h', renamed⟩
  refine ⟨⟨?_, ?_⟩, ?_⟩
  · rintro ⟨⟨m, scope⟩, h⟩
    obtain ⟨_, m', scope', -, h', -⟩ := follows perm h
    exact ⟨_, h'⟩
  · rintro ⟨⟨m', scope'⟩, h'⟩
    obtain ⟨_, m, scope, -, h, -⟩ := follows perm.symm h'
    exact ⟨_, h⟩
  · intro m scope m' scope' h h'
    obtain ⟨ρ, m'', scope'', moves, h'', renamed⟩ := follows perm h
    cases h'.symm.trans h''
    exact ⟨ρ, moves, renamed⟩

/-- A struct before the struct that it holds, and a function before the two that its body may call:
`f` of the struct, and `f` of a `U8`. -/
def forwardTree : ModuleSyntax :=
  let z : Span := .null
  let call : Stmt := .expr z (.call z (.identifier z "f") [.identifier z "a"])
  ⟨[.struct ⟨"outer", [("first", .named z "inner"), ("second", .named z "U8")], z⟩,
    .function ⟨"main", [⟨"a", .named z "U8", z⟩], none, .block (.mk z [call]), z⟩,
    .function ⟨"f", [⟨"a", .named z "outer", z⟩], none, .block (.mk z []), z⟩,
    .struct ⟨"inner", [("value", .named z "U32")], z⟩,
    .function ⟨"f", [⟨"a", .named z "U8", z⟩], none, .block (.mk z []), z⟩], z⟩

def backwardTree : ModuleSyntax := ⟨forwardTree.items.reverse, .null⟩

/-- Declared backwards, the module is accepted as well. -/
theorem build_perm_reversed :
    ∃ (m : Module) (scope : Scope) (m' : Module) (scope' : Scope) (ρ : Renaming),
    (build (Scope.standard .standard).push "m" "m.g" forwardTree).outcome = .ok (m, scope) ∧
      (build (Scope.standard .standard).push "m" "m.g" backwardTree).outcome = .ok (m', scope') ∧
      m.structs = [⟨0, "outer"⟩, ⟨1, "inner"⟩] ∧ m.functions.length = 3 ∧
      ρ.Moves forwardTree.items backwardTree.items ∧ Module.Renamed ρ m scope m' scope' := by
  have run : (build (Scope.standard .standard).push "m" "m.g" forwardTree).outcome.toOption.map
      (fun r => (r.1.structs, r.1.functions.length)) = some ([⟨0, "outer"⟩, ⟨1, "inner"⟩], 3) := by
    decide +kernel
  obtain ⟨⟨m, scope⟩, accepted, hm⟩ := eq_ok_of_map run
  obtain ⟨hstructs, hlength⟩ := Prod.mk.inj hm
  have perm : forwardTree.items.Perm backwardTree.items := forwardTree.items.reverse_perm.symm
  obtain ⟨iff, same⟩ := build_perm .standard "m" "m.g" perm
  obtain ⟨⟨m', scope'⟩, accepted'⟩ := iff.mp ⟨_, accepted⟩
  obtain ⟨ρ, moves, renamed⟩ := same m scope m' scope' accepted accepted'
  exact ⟨m, scope, m', scope', ρ, accepted, accepted', hstructs, hlength, moves, renamed⟩

end Module

end Gauge
