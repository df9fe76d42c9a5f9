import Gauge.Proofs.Module.Laid
import Gauge.Proofs.Module.Reserved

/-!
# Proofs — structs that hold themselves

A struct stores another one if a member is of its type, not behind a pointer.  The pass that lays
out the structs of a module succeeds exactly if no struct stores itself, directly or through others,
and every struct fits in 32 bits; otherwise it names one that stores itself or meets one that does
not fit (`Module.completeStructs_exact`).

`Module.Completes` is the recursion of the pass without a bound on its depth; it gives what the
bounded one gives (`Module.completes_iff`).
-/

namespace Gauge

/-! ### What a struct stores -/

/-- A value of the type has one of the named type inside itself. -/
inductive TypeExpr.Stores (name : String) : TypeExpr → Prop
  | named (span : Span) : Stores name (.named span name)
  | mutable (span : Span) {x : TypeExpr} (h : Stores name x) : Stores name (.mutable span x)

/-- The name that a type is made of. -/
def TypeExpr.base : TypeExpr → String
  | .named _ name => name
  | .pointer _ x | .mutable _ x => x.base

theorem TypeExpr.stores_iff {name : String} {x : TypeExpr} :
    x.Stores name ↔ x.byValueName? = some name := by
  induction x with
  | named span n =>
    rw [byValueName?, Option.some.injEq]
    constructor
    · rintro ⟨⟩
      rfl
    · rintro rfl
      exact .named span
  | pointer span x =>
    rw [byValueName?]
    constructor
    · rintro ⟨⟩
    · rintro ⟨⟩
  | mutable span x ih =>
    rw [byValueName?, ← ih]
    constructor
    · rintro ⟨⟩
      assumption
    · exact .mutable span

open Module

/-- Of some structs, `d` stores `e`. -/
def StructDecl.Stores (ds : List StructDecl) (d e : StructDecl) : Prop :=
  d ∈ ds ∧ e ∈ ds ∧ ∃ m ∈ d.members, m.2.Stores e.name

namespace Module

variable {structs : List PendingStruct} {p q : PendingStruct}

theorem PendingStruct.holds_iff :
    p.Holds q ↔ ∃ m ∈ p.decl.members, m.2.Stores q.decl.name := by
  simp only [PendingStruct.Holds, TypeExpr.stores_iff]

theorem stores_of_inside (h : Relation.TransGen (Inside structs) q p) (hp : p ∈ structs) :
    Relation.TransGen (StructDecl.Stores (structs.map (·.decl))) p.decl q.decl := by
  have step : ∀ {q p : PendingStruct}, Inside structs q p → p ∈ structs →
      StructDecl.Stores (structs.map (·.decl)) p.decl q.decl := fun h hp =>
    ⟨List.mem_map_of_mem hp, List.mem_map_of_mem h.1, PendingStruct.holds_iff.mp h.2⟩
  induction h with
  | single h => exact .single (step h hp)
  | tail _ h ih => exact .head (step h hp) (ih h.1)

/-- What is stored, also through others, is held in the end. -/
theorem inside_of_stores {d e : StructDecl}
    (h : Relation.TransGen (StructDecl.Stores (structs.map (·.decl))) d e) :
    ∀ p q, q ∈ structs → p.decl = d → q.decl = e → Relation.TransGen (Inside structs) q p := by
  have step : ∀ {p q : PendingStruct}, q ∈ structs →
      StructDecl.Stores (structs.map (·.decl)) p.decl q.decl → Inside structs q p := fun hq h =>
    ⟨hq, PendingStruct.holds_iff.mpr h.2.2⟩
  induction h with
  | single h =>
    rintro p q hq rfl rfl
    exact .single (step hq h)
  | tail _ h ih =>
    rintro p q hq rfl rfl
    obtain ⟨b, hb, rfl⟩ := List.mem_map.mp h.1
    exact .head (step hq h) (ih p b hb rfl rfl)

/-! ### The recursion without a bound -/

/-- Adds a member, after what became of the struct that it holds. -/
def addMember (members : List (String × Ty)) (m : String × TypeExpr) (held : Except Failure Scope) :
    Except Failure (List (String × Ty) × Scope) := do
  let s ← held
  let t ← Failure.ofError (s.resolveType m.2)
  return (members ++ [(m.1, t)], s)

mutual

/-- A finite run that lays out a struct, while those `within` are being laid out around it. -/
inductive Completes (structs : List PendingStruct) :
    List String → String → Scope → Except Failure Scope → Prop
  | foreign {within : List String} {name : String} {s : Scope}
      (find : structs.find? (·.decl.name = name) = none) : Completes structs within name s (.ok s)
  | ready {within : List String} {name : String} {s : Scope} {p : PendingStruct}
      (find : structs.find? (·.decl.name = name) = some p)
      (ready : s.structs.isReady p.ref = true) :
      Completes structs within name s (.ok s)
  | again {within : List String} {name : String} {s : Scope} {p : PendingStruct}
      (find : structs.find? (·.decl.name = name) = some p)
      (pending : ¬ s.structs.isReady p.ref = true) (met : name ∈ within) :
      Completes structs within name s (.error (.error ⟨.incompleteType name, p.decl.span.start⟩))
  | laid {within : List String} {name : String} {s : Scope} {p : PendingStruct}
      {r : Except Failure (List (String × Ty) × Scope)}
      (find : structs.find? (·.decl.name = name) = some p)
      (pending : ¬ s.structs.isReady p.ref = true) (new : name ∉ within)
      (fills : Fills structs (name :: within) p.decl.members ([], s) r) :
      Completes structs within name s
        (r >>= fun x => Failure.ofFault (x.2.completeStruct (.struct .none p.ref) x.1))

/-- A finite run that lays out the struct that a type holds by value, if it holds one. -/
inductive Provides (structs : List PendingStruct) :
    List String → TypeExpr → Scope → Except Failure Scope → Prop
  | nothing {within : List String} {x : TypeExpr} {s : Scope} (h : x.byValueName? = none) :
      Provides structs within x s (.ok s)
  | struct {within : List String} {x : TypeExpr} {name : String} {s : Scope}
      {r : Except Failure Scope} (h : x.byValueName? = some name)
      (completes : Completes structs within name s r) : Provides structs within x s r

/-- A finite run over the members of a struct, up to the first that is refused. -/
inductive Fills (structs : List PendingStruct) :
    List String → List (String × TypeExpr) → List (String × Ty) × Scope →
      Except Failure (List (String × Ty) × Scope) → Prop
  | nil {within : List String} {x : List (String × Ty) × Scope} : Fills structs within [] x (.ok x)
  | stop {within : List String} {m : String × TypeExpr} {ms : List (String × TypeExpr)}
      {x : List (String × Ty) × Scope} {held : Except Failure Scope} {f : Failure}
      (provides : Provides structs within m.2 x.2 held) (added : addMember x.1 m held = .error f) :
      Fills structs within (m :: ms) x (.error f)
  | next {within : List String} {m : String × TypeExpr} {ms : List (String × TypeExpr)}
      {x y : List (String × Ty) × Scope} {held : Except Failure Scope}
      {r : Except Failure (List (String × Ty) × Scope)}
      (provides : Provides structs within m.2 x.2 held) (added : addMember x.1 m held = .ok y)
      (fills : Fills structs within ms y r) : Fills structs within (m :: ms) x r

end

section Bounded

variable {n : Nat} {within : List String}
  (completes : ∀ name s r, Completes structs within name s r ↔
    r = completeStruct structs n within name s)

include completes

theorem provides_iff {x : TypeExpr} {s : Scope} {r : Except Failure Scope} :
    Provides structs within x s r ↔ r = layHeld structs n within x s := by
  unfold layHeld
  constructor
  · intro h
    cases h with
    | nothing h => rw [h]
    | struct h run =>
      rw [h]
      exact (completes _ _ _).mp run
  · rintro rfl
    split
    · next name h => exact .struct h ((completes name s _).mpr rfl)
    · next h => exact .nothing h

/-- The members of a struct, with a bound on the depth and without. -/
theorem fills_iff {ms : List (String × TypeExpr)} {x : List (String × Ty) × Scope}
    {r : Except Failure (List (String × Ty) × Scope)} :
    Fills structs within ms x r ↔ r = ms.foldlM (layMember structs n within) x := by
  induction ms generalizing x r with
  | nil =>
    constructor
    · rintro ⟨⟩
      rfl
    · rintro rfl
      exact .nil
  | cons m ms ih =>
    have added : layMember structs n within x m =
        addMember x.1 m (layHeld structs n within m.2 x.2) := rfl
    rw [List.foldlM_cons]
    constructor
    · intro h
      cases h with
      | stop provides refused =>
        rw [added, ← (provides_iff completes).mp provides, refused]
        rfl
      | next provides taken fills =>
        rw [added, ← (provides_iff completes).mp provides, taken]
        exact ih.mp fills
    · rintro rfl
      have provides := (provides_iff completes (x := m.2) (s := x.2)).mpr rfl
      cases taken : layMember structs n within x m with
      | error f => exact .stop provides taken
      | ok y => exact .next provides taken (ih.mpr rfl)

end Bounded

/-- The recursion has exactly one run, and gives what the bounded one gives.  By induction on the
depth that is left: the structs `within` are different ones, so there is some. -/
theorem completes_iff {n : Nat} {within : List String} (distinct : within.Nodup)
    (among : within ⊆ structs.map (·.decl.name)) (depth : n + within.length = structs.length + 1)
    (name : String) (s : Scope) (r : Except Failure Scope) :
    Completes structs within name s r ↔ r = completeStruct structs n within name s := by
  induction n generalizing within name s r with
  | zero =>
    have := (List.subperm_of_subset distinct among).length_le
    rw [List.length_map] at this
    omega
  | succ n ih =>
    have inner : ∀ p, structs.find? (·.decl.name = name) = some p → name ∉ within →
        ∀ name' s' r', Completes structs (name :: within) name' s' r' ↔
          r' = completeStruct structs n (name :: within) name' s' := by
      intro p find new
      have hname : p.decl.name = name := by simpa using List.find?_some find
      have named : name ∈ structs.map (·.decl.name) :=
        hname ▸ List.mem_map_of_mem (List.mem_of_find?_eq_some find)
      exact ih (List.nodup_cons.mpr ⟨new, distinct⟩) (List.cons_subset.mpr ⟨named, among⟩)
        (by rw [List.length_cons]; omega)
    rw [completeStruct_succ]
    constructor
    · intro h
      cases h with
      | foreign find => simp only [find]
      | ready find ready => simp only [find, if_pos ready]
      | again find pending met => simp only [find, if_neg pending, if_pos met]
      | laid find pending new fills =>
        obtain rfl := (fills_iff (inner _ find new)).mp fills
        simp only [find, if_neg pending, if_neg new]
    · rintro rfl
      split
      · next find => exact .foreign find
      · next p find =>
        split
        · next ready => exact .ready find ready
        · next pending =>
          split
          · next met => exact .again find pending met
          · next new => exact .laid find pending new ((fills_iff (inner p find new)).mpr rfl)

/-! ### Modules -/

/-- An annotation means something exactly if the name that it is made of does. -/
theorem resolveType_defined {s : Scope} {x : TypeExpr} (h : (s.lookupType x.base).isSome = true) :
    ∃ t, s.resolveType x = .ok t := by
  induction x with
  | named span name =>
    obtain ⟨t, ht⟩ := Option.isSome_iff_exists.mp h
    have ht : s.lookupType name = some t := ht
    exact ⟨t, by rw [Scope.resolveType, ht]⟩
  | pointer span x ih | mutable span x ih =>
    obtain ⟨t, ht⟩ := ih h
    exact ⟨_, by rw [Scope.resolveType, ht]; rfl⟩

end Module

/-- A module's scope knows its structs and the builtin types. -/
theorem Scope.Reserves.lookupType_isSome {limits : Limits} {ds : List StructDecl}
    {fs : List FunctionDecl} {s : Scope} (h : s.Reserves limits ds fs) {name : String}
    (hn : name ∈ ds.map (·.name) ∨ ((Scope.standard limits).lookupType name).isSome = true) :
    (s.lookupType name).isSome = true := by
  rw [Scope.lookupType, Scope.frames, h.outer, List.findSome?_cons]
  cases own : s.frame.types.lookup name with
  | some t => rfl
  | none =>
    have unknown : name ∉ ds.map (·.name) := by
      rw [← h.known, own]
      exact Bool.false_ne_true
    exact hn.resolve_left unknown

namespace Module

section Pass

variable {structs : List PendingStruct} {functions : List PendingFunction} {s s' : Scope}
  (lists : s.Lists structs functions)

include lists

/-- After the pass all structs are ready, none of them stores itself, and all of them fit. -/
theorem ready_of_completeStructs (h : completeStructs structs s = .ok s') :
    ∀ p ∈ structs, s'.structs.isReady p.ref = true ∧ ¬ Relation.TransGen (Inside structs) p p ∧
      ∀ room, Takes s structs p room → room.size < UInt32.size := by
  obtain ⟨t, rfl⟩ := completeStructs_withStructs h
  obtain ⟨laying, ready⟩ := completeStructs_laid lists h
  intro p hp
  obtain ⟨l, hl⟩ := Option.isSome_iff_exists.mp (ready p hp)
  have laid := laying.laid p hp l hl
  exact ⟨ready p hp, laid.not_inside_self, fun room takes => laid.fits lists takes⟩

/-- Where all members have types, only a struct that stores itself is refused, and only one that
does not fit is a fault. -/
theorem cause_of_completeStructs
    (resolves : ∀ p ∈ structs, ∀ m ∈ p.decl.members, ∃ t, s.resolveType m.2 = .ok t) {f : Failure}
    (h : completeStructs structs s = .error f) :
    (∃ p ∈ structs, Relation.TransGen (Inside structs) p p ∧
        f = .error ⟨.incompleteType p.decl.name, p.decl.span.start⟩) ∨
      ∃ fault, f = .fault fault ∧ fault.IsOverflow ∧ Oversized s structs := by
  rcases completeStructs_ends lists with ⟨t, ht⟩ | ⟨e, he⟩ | ⟨fault, hf, overflow, large⟩
  · cases h.symm.trans ht
  · cases h.symm.trans he
    rcases completeStructs_refused lists he with ⟨p, hp, m, hm, hr⟩ | ⟨p, hp, inside, rfl⟩
    · obtain ⟨t, ht⟩ := resolves p hp m hm
      cases ht.symm.trans hr
    · exact .inl ⟨p, hp, inside, rfl⟩
  · cases h.symm.trans hf
    exact .inr ⟨fault, rfl, overflow, large⟩

end Pass

/-- **What a module's structs are refused for.**  In a module whose structs have different names and
members of known types, the recursion that lays them out ends, and gives what the bounded one gives.
The pass succeeds exactly if no struct stores itself, not even through others, and every struct fits
in 32 bits; then all structs are ready.  Otherwise it fails, and the module with it: with an error
that names a struct that stores itself, or with an overflow at a struct that does not fit, and with
nothing else.  No layout is asked for that is not there yet, and none is made twice. -/
theorem completeStructs_exact (limits : Limits) (tree : ModuleSyntax)
    (distinct : ((structsOf tree.items).map (·.name)).Nodup)
    (known : ∀ d ∈ structsOf tree.items, ∀ m ∈ d.members,
      m.2.base ∈ (structsOf tree.items).map (·.name) ∨
        ((Scope.standard limits).lookupType m.2.base).isSome = true) :
    ∃ reserved s, reserve (Scope.standard limits).push tree.items = .ok (reserved, s) ∧
      reserved.structs.map (·.decl) = structsOf tree.items ∧
      (∀ name s' r, Completes reserved.structs [] name s' r ↔
        r = completeStruct reserved.structs (reserved.structs.length + 1) [] name s') ∧
      ((∃ s', completeStructs reserved.structs s = .ok s') ↔
        (∀ d, ¬ Relation.TransGen (StructDecl.Stores (structsOf tree.items)) d d) ∧
          ¬ Oversized s reserved.structs) ∧
      (∀ s', completeStructs reserved.structs s = .ok s' →
        ∀ p ∈ reserved.structs, s'.structs.isReady p.ref = true) ∧
      ∀ f, completeStructs reserved.structs s = .error f →
        ((∃ d ∈ structsOf tree.items,
            Relation.TransGen (StructDecl.Stores (structsOf tree.items)) d d ∧
            f = .error ⟨.incompleteType d.name, d.span.start⟩) ∨
          ∃ fault, f = .fault fault ∧ fault.IsOverflow ∧ Oversized s reserved.structs) ∧
        ∀ name file, (build (Scope.standard limits).push name file tree).outcome = .error f := by
  obtain ⟨⟨reserved, s⟩, hr⟩ := reserve_defined (.start limits) distinct
  obtain ⟨rfl, reserves⟩ := reserve_reserves hr
  have lists := lists_of_reserve hr
  have decls := map_decl_pendingStructs (structsOf tree.items)
  have resolves : ∀ p ∈ pendingStructs 0 (structsOf tree.items), ∀ m ∈ p.decl.members,
      ∃ t, s.resolveType m.2 = .ok t := by
    intro p hp m hm
    have hd : p.decl ∈ structsOf tree.items := decls ▸ List.mem_map_of_mem hp
    exact resolveType_defined (reserves.lookupType_isSome (known _ hd m hm))
  have cause : ∀ f, completeStructs (pendingStructs 0 (structsOf tree.items)) s = .error f →
      (∃ d ∈ structsOf tree.items,
          Relation.TransGen (StructDecl.Stores (structsOf tree.items)) d d ∧
          f = .error ⟨.incompleteType d.name, d.span.start⟩) ∨
        ∃ fault, f = .fault fault ∧ fault.IsOverflow ∧
          Oversized s (pendingStructs 0 (structsOf tree.items)) := by
    intro f h
    refine (cause_of_completeStructs lists resolves h).imp_left ?_
    rintro ⟨p, hp, inside, rfl⟩
    have stores := stores_of_inside inside hp
    rw [decls] at stores
    exact ⟨p.decl, decls ▸ List.mem_map_of_mem hp, stores, rfl⟩
  refine ⟨_, s, hr, decls, ?_, ⟨?_, ?_⟩, ?_, ?_⟩
  · exact completes_iff List.nodup_nil (List.nil_subset _) rfl
  · rintro ⟨s', h⟩
    refine ⟨fun d stores => ?_, fun ⟨p, hp, room, takes, large⟩ => ?_⟩
    on_goal 2 =>
      exact Nat.not_lt.mpr large ((ready_of_completeStructs lists h p hp).2.2 room takes)
    have hd : d ∈ structsOf tree.items := by
      cases stores with
      | single h | tail _ h => exact h.2.1
    rw [← decls] at hd stores
    obtain ⟨p, hp, rfl⟩ := List.mem_map.mp hd
    exact (ready_of_completeStructs lists h p hp).2.1 (inside_of_stores stores p p hp rfl rfl)
  · rintro ⟨acyclic, small⟩
    cases h : completeStructs (pendingStructs 0 (structsOf tree.items)) s with
    | ok s' => exact ⟨s', rfl⟩
    | error f =>
      rcases cause f h with ⟨d, -, stores, -⟩ | ⟨fault, -, -, large⟩
      · exact absurd stores (acyclic d)
      · exact absurd large small
  · exact fun s' h p hp => (ready_of_completeStructs lists h p hp).1
  · refine fun f h => ⟨cause f h, fun name file => ?_⟩
    simp only [build, Traced.outcome_bind, Traced.lift_outcome, hr, Failure.ofError, ok_bind, h]
    rfl

/-- Two structs: `a` has a member of the given type, and `b` stores `a`. -/
def coupledTree (x : TypeExpr) : ModuleSyntax :=
  let z : Span := .null
  ⟨[.struct ⟨"a", [("first", x)], z⟩, .struct ⟨"b", [("second", .named z "a")], z⟩], z⟩

/-- Structs `A0`, `A1` and so on, the first of two numbers and each other of two of the one before.
-/
def doublingTree (n : Nat) : ModuleSyntax :=
  let z : Span := .null
  let item (i : Nat) : Item :=
    let x : TypeExpr := .named z (if i = 0 then "U64" else "A" ++ toString (i - 1))
    .struct ⟨"A" ++ toString i, [("a", x), ("b", x)], z⟩
  ⟨(List.range n).map item, z⟩

/-- The pass over the structs of a module by itself. -/
def structPass (tree : ModuleSyntax) : Except Failure Scope := do
  let (reserved, s) ← Failure.ofError (reserve (Scope.standard .standard).push tree.items)
  completeStructs reserved.structs s

/-- If `a` stores `b` as well, though under `mut`, the module is refused; if it only points to it,
both are laid out.  Of structs that double the twenty-ninth does not fit. -/
theorem completeStructs_exact_coupled :
    let z : Span := .null
    (∃ d ∈ structsOf (coupledTree (.mutable z (.named z "b"))).items, ∀ name file,
      (build (Scope.standard .standard).push name file
        (coupledTree (.mutable z (.named z "b")))).outcome =
          .error (.error ⟨.incompleteType d.name, d.span.start⟩)) ∧
    (∃ reserved s s', reserve (Scope.standard .standard).push
        (coupledTree (.pointer z (.named z "b"))).items = .ok (reserved, s) ∧
      completeStructs reserved.structs s = .ok s' ∧
      ∀ p ∈ reserved.structs, s'.structs.isReady p.ref = true) ∧
    ∃ reserved s, reserve (Scope.standard .standard).push (doublingTree 29).items =
        .ok (reserved, s) ∧ Oversized s reserved.structs ∧
      ∀ name file, (build (Scope.standard .standard).push name file (doublingTree 29)).outcome =
        .error (.fault .addOverflow) := by
  intro z
  refine ⟨?_, ?_, ?_⟩
  · obtain ⟨reserved, s, hr, -, -, -, -, refused⟩ := completeStructs_exact .standard
      (coupledTree (.mutable z (.named z "b"))) (by decide) (by decide)
    have run : structPass (coupledTree (.mutable z (.named z "b"))) =
        .error (.error ⟨.incompleteType "a", .null⟩) := eq_error_of_failure (by decide +kernel)
    rw [structPass, hr] at run
    obtain ⟨⟨d, hd, -, same⟩ | ⟨fault, same, -⟩, build⟩ := refused _ run
    · rw [same] at build
      exact ⟨d, hd, build⟩
    · cases same
  · obtain ⟨reserved, s, hr, -, -, -, ready, -⟩ := completeStructs_exact .standard
      (coupledTree (.pointer z (.named z "b"))) (by decide) (by decide)
    have run : (structPass (coupledTree (.pointer z (.named z "b")))).toOption.isSome = true := by
      decide +kernel
    rw [structPass, hr] at run
    cases h : completeStructs reserved.structs s with
    | ok s' => exact ⟨reserved, s, s', hr, h, ready s' h⟩
    | error f =>
      simp only [Failure.ofError, ok_bind, h] at run
      cases run
  · obtain ⟨reserved, s, hr, -, -, -, -, refused⟩ := completeStructs_exact .standard
      (doublingTree 29) (by decide +kernel) (by decide +kernel)
    have run : structPass (doublingTree 29) = .error (.fault .addOverflow) :=
      eq_error_of_failure (by decide +kernel)
    rw [structPass, hr] at run
    obtain ⟨⟨d, -, -, same⟩ | ⟨fault, -, -, large⟩, build⟩ := refused _ run
    · cases same
    · exact ⟨reserved, s, hr, large, build⟩

end Module

end Gauge
