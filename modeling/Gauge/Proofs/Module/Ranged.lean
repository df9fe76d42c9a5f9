import Gauge.Proofs.Module.Built

/-!
# Proofs — the ranges of a module

In the bodies of a module that is accepted, and in every scope that their statements are checked in,
all ranges suit their types (`Module.build_ranged`).
-/

namespace Gauge

namespace Module

variable {K : StructRef → Prop} {result : Ty}

/-! ### Scopes of statements -/

/-- The scopes that a module whose names stand in `scope` checks statements in: that of a body with
the parameters of its function, that of a block inside, and what is left behind a statement. -/
inductive Opens (scope : Scope) : Scope → Prop
  | body {decl : FunctionDecl} {g : Signature} {arguments : List Argument} {s : Scope}
      {p q : Progress} (hd : signature scope decl = .ok g)
      (h : (addParameters (scope.push.setReturnType g.result)
        (decl.parameters.zip g.parameters)).Gives p (arguments, s) q) : Opens scope s
  | block {s : Scope} (h : Opens scope s) : Opens scope s.push
  | behind {s s' : Scope} {stmt : Stmt} {typed : TypedStmt} {p q : Progress}
      (h : Opens scope s) (hs : (stmt.check s).Gives p (typed, s') q) : Opens scope s'

/-- The names in these scopes make sense. -/
theorem Opens.sane (hK : StructRef.Distinct K) {scope s : Scope} (hs : scope.Sane K result)
    (h : Opens scope s) : (∃ result, s.Sane K result) ∧ s.world = scope.world := by
  induction h with
  | body hd h =>
    have native := signature_native hs.toNative hd
    exact ⟨⟨_, (addParameters_sane hs (fun _ _ => Extent.placed_all _) hd).gives h⟩,
      (addParameters_native (hs.toNative.enter native.result native.value) h).2⟩
  | block _ ih => exact ⟨ih.1.imp fun _ h => h.push, ih.2⟩
  | behind _ h ih =>
    obtain ⟨⟨result, hs⟩, hw⟩ := ih
    obtain ⟨-, hs', hw'⟩ := (Stmt.check_safe hK _ (Extent.placed_all _) hs).gives h
    exact ⟨⟨result, hs'⟩, hw'.trans hw⟩

/-- **In a module that is accepted all ranges suit their types.**  In the bodies of its functions
this holds of every node and of every step of a conversion (`Typed.Ranged`), and in the scopes that
their statements are checked in, of every variable. -/
theorem build_ranged {limits : Limits} {name file : String} {tree : ModuleSyntax}
    {m : Module} {scope : Scope}
    (h : (build (Scope.standard limits).push name file tree).outcome = .ok (m, scope)) :
    (∀ f ∈ m.functions, f.body.Ranged scope.structs) ∧
      ∀ s, Opens scope s → ∀ f ∈ s.frames, ∀ b ∈ f.symbols, ∀ v, b.2 = .variable v →
        v.range.Suits scope.structs v.type := by
  have clear := build_safe limits name file tree (fun _ _ => Extent.placed_all _)
    fun _ _ _ _ => trivial
  rw [h] at clear
  obtain ⟨reserved, s, t, hb⟩ := built_of_build h
  refine ⟨clear, fun s hs => ?_⟩
  obtain ⟨⟨result, sane⟩, hw⟩ := hs.sane hb.distinct hb.sane
  rw [← show s.structs = scope.structs from congrArg World.structs hw]
  exact sane.ranges.variable_mem

/-- The module `pick` is accepted with its one function, and a body with the parameter of that
function knows it as a variable. -/
theorem build_ranged_pick :
    ∃ m scope, (build (Scope.standard .standard).push "pick" "pick.g" .pick).outcome =
      .ok (m, scope) ∧
      m.functions.length = 1 ∧ (∀ f ∈ m.functions, f.body.Ranged scope.structs) ∧
      ∃ s v, Opens scope s ∧ s.lookupSymbol "a" = some (.variable v) ∧
        v.range.Suits scope.structs v.type := by
  let z : Span := .null
  let decl : FunctionDecl :=
    ⟨"pick", [⟨"a", .mutable z (.named z "U8"), z⟩], some (.named z "U16"), .block (.mk z []), z⟩
  have run : (build (Scope.standard .standard).push "pick" "pick.g" .pick).outcome.toOption.map
      (fun r => (r.1.functions.length, (signature r.2 decl).toOption.map fun g =>
        ((addParameters (r.2.push.setReturnType g.result)
          (decl.parameters.zip g.parameters)).run ⟨.zero, 0⟩).outcome.toOption.map fun a =>
            (a.1.2.lookupSymbol "a").any fun b =>
              b.casesOn (motive := fun _ => Bool) (fun _ => true) fun _ => false)) =
        some (1, some (some true)) := by
    decide +kernel
  obtain ⟨⟨m, scope⟩, accepted, hr⟩ := eq_ok_of_map run
  obtain ⟨hl, hr⟩ := Prod.mk.inj hr
  obtain ⟨g, hg, hr⟩ := eq_ok_of_map hr
  obtain ⟨⟨⟨arguments, s⟩, q⟩, ha, hv⟩ := eq_ok_of_map hr
  have opens : Opens scope s := .body hg ha
  obtain ⟨ranged, suits⟩ := build_ranged accepted
  obtain ⟨b, hs, hv⟩ := (Option.any_eq_true ..).mp hv
  rcases b with v | ids
  · obtain ⟨f, hf, hb⟩ := Scope.mem_of_lookupSymbol hs
    exact ⟨m, scope, accepted, hl, ranged, s, v, opens, hs, suits s opens f hf _ hb v rfl⟩
  · cases hv

end Module

end Gauge
