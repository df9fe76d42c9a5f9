import Gauge.Proofs.Module.Safe

/-!
# Proofs — the passes over an accepted module

A module that is accepted went through all passes, each of which succeeded.  `Module.Built` holds
what they were given and what they gave, with what is known in between, so that no later proof has
to take the passes apart again.
-/

namespace Gauge

namespace Module

/-- What the passes gave for a module that was accepted: the reserved names and the scope `s` with
them, the table `t` of the structs that were laid out, and the scope that the bodies were checked
in. -/
structure Built (limits : Limits) (tree : ModuleSyntax) (m : Module) (scope : Scope)
    (reserved : Reserved) (s : Scope) (t : Structs) : Prop where
  reserve : reserve (Scope.standard limits).push tree.items = .ok (reserved, s)
  lists : s.Lists reserved.structs reserved.functions
  complete : completeStructs reserved.structs s = .ok (s.withStructs t)
  native : t.Native (· ∈ reserved.structs.map (·.ref))
  resolve : (resolveFunctions reserved.functions (s.withStructs t)).outcome = .ok scope
  resolved : Resolving (· ∈ reserved.structs.map (·.ref)) Builtin.void reserved.functions
    (s.withStructs t) [] scope
  check : (checkFunctions scope reserved.functions).outcome = .ok m.functions
  declarations : (reserved.functions.mapM fun p => scope.callee p.id) = .ok m.declarations
  structs : m.structs = reserved.structs.map (·.ref)

variable {limits : Limits} {name file : String} {tree : ModuleSyntax} {m : Module} {scope s : Scope}
  {reserved : Reserved} {t : Structs}

/-- All that the passes over an accepted module leave. -/
theorem built_of_build
    (h : (build (Scope.standard limits).push name file tree).outcome = .ok (m, scope)) :
    ∃ reserved s t, Built limits tree m scope reserved s t := by
  obtain ⟨⟨reserved, s⟩, h₁, h⟩ := Traced.bind_ok.mp h
  obtain ⟨s₂, h₂, h⟩ := Traced.bind_ok.mp h
  obtain ⟨s₃, h₃, h⟩ := Traced.bind_ok.mp h
  obtain ⟨functions, h₄, h⟩ := Traced.bind_ok.mp h
  obtain ⟨declarations, h₅, h⟩ := Traced.bind_ok.mp h
  cases Traced.pure_ok.mp h
  have h₁ := Failure.ofError_eq_ok.mp h₁
  have hs := lists_of_reserve h₁
  -- what is known of the results of safe passes
  have safe := completeStructs_safe hs (fun _ _ => Extent.placed_all _) fun _ => trivial
  rw [show completeStructs reserved.structs s = .ok s₂ from h₂] at safe
  obtain ⟨t, rfl, laying, -⟩ := safe
  have safe := resolveFunctions_safe hs.reserving.distinct (.start hs t)
    fun _ _ => FunctionDecl.placed (Extent.placed_all _)
  rw [h₃] at safe
  exact ⟨reserved, s, t, h₁, hs, h₂, laying.native, h₃, safe, h₄, Failure.ofFault_eq_ok.mp h₅, rfl⟩

namespace Built

variable (h : Built limits tree m scope reserved s t)

include h

theorem sane : scope.Sane (· ∈ reserved.structs.map (·.ref)) Builtin.void :=
  h.resolved.sane h.lists h.native

theorem distinct : StructRef.Distinct (· ∈ reserved.structs.map (·.ref)) :=
  h.lists.reserving.distinct

end Built

end Module

end Gauge
