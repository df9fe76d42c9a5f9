import Gauge.Proofs.Module
import Gauge.Proofs.Typed.Parts

/-!
# Proofs — what assignments store

An assignment writes to storage that may be written to, and its value is converted to the type of
that storage.  Storage of `Void`, which pointers and parameters can have, is the exception: `Void`
stands for a value that is not wanted, so whatever the value is, it is stored without a conversion
(`Module.stores_typed`).
-/

namespace Gauge

/-- The type of the storage and of the value, if the expression is an assignment. -/
def Typed.store? : Typed → Option (Ty × Ty)
  | .mk _ (.assign target value) => some (target.type, value.type)
  | _ => none

/-- What an assignment of an expression's value may be: a value of the storage's own type, unless
the storage is `Void`. -/
theorem Typed.WellTyped.store {s : Structs} {result : Ty} {e : Typed} {t u : Ty}
    (h : e.WellTyped s result) (hs : e.store? = some (t, u)) :
    t.isReference = true ∧ t.isMutable = true ∧ (t.isVoid = false → u = t.bare) := by
  unfold Typed.store? at hs
  split at hs
  · cases hs
    obtain ⟨-, -, -, hr, hm, ht, -⟩ := h
    exact ⟨hr, hm, ht⟩
  · cases hs

/-- A target that can be written to takes its type without flags. -/
theorem Typed.gives_assignable {span : Span} {target : Typed} {p : Progress}
    (hr : target.type.isReference = true) (hm : target.type.isMutable = true) :
    (target.assignable span).Gives p target.type.bare p := by
  simp only [Typed.assignable, hr, hm, Bool.not_true, Bool.false_eq_true, if_false]
  exact Check.gives_pure.mpr ⟨rfl, rfl⟩

/-- Where `Void` is expected, what is there is left as it is. -/
theorem Typed.meet_void {scope : Scope} {limit : Weight} {t : Ty} (hv : t.isVoid = true)
    (e : Typed) :
    e.meet scope limit (.required t) = pure e := if_pos hv

/-- Into storage of `Void` every value goes as it is. -/
theorem Expr.natural_assign_void {scope : Scope} {limit : Weight} {expected : Expected}
    {span : Span}
    {a b : Expr} {target built : Typed} {p m q : Progress}
    (ha : (a.natural scope limit .anything).Gives p target m)
    (hr : target.type.isReference = true) (hm : target.type.isMutable = true)
    (hv : target.type.isVoid = true) :
    (Expr.natural scope limit expected (.assign span a b)).Gives p built q ↔
      ∃ value, (b.natural scope limit (.required target.type.bare)).Gives m value q ∧
        built = Typed.assign span target value := by
  have void : target.type.bare.isVoid = true := by rw [Ty.isVoid_bare, hv]
  rw [Expr.natural]
  constructor
  · intro h
    obtain ⟨target', m', ha', h⟩ := Check.gives_bind.mp h
    obtain ⟨rfl, rfl⟩ := Prod.mk.inj (Except.ok.inj (ha'.symm.trans ha))
    obtain ⟨t, _, ht, h⟩ := Check.gives_bind.mp h
    obtain ⟨rfl, -, -, rfl⟩ := Typed.assignable_gives ht
    obtain ⟨value, _, hb, h⟩ := Check.gives_bind.mp h
    rw [Typed.meet_void void, pure_bind] at h
    obtain ⟨rfl, rfl⟩ := Check.gives_pure.mp h
    exact ⟨value, hb, rfl⟩
  · rintro ⟨value, hb, rfl⟩
    refine Check.gives_bind.mpr ⟨target, m, ha, ?_⟩
    refine Check.gives_bind.mpr ⟨_, m, Typed.gives_assignable hr hm, ?_⟩
    refine Check.gives_bind.mpr ⟨value, q, hb, ?_⟩
    rw [Typed.meet_void void, pure_bind]
    exact Check.gives_pure.mpr ⟨rfl, rfl⟩

namespace Module

/-- **All stores are typed, but for those to `Void`.**  In a module that is accepted every
assignment writes to storage that may be written to, and its value has the type of that storage
without flags, unless the storage is `Void`.  To such storage every value can be assigned that can
be built at all, and it keeps its type. -/
theorem stores_typed (limits : Limits) (name file : String) :
    (∀ {tree : ModuleSyntax} {m : Module} {scope : Scope},
      (build (Scope.standard limits).push name file tree).outcome = .ok (m, scope) →
      ∀ f ∈ m.functions, ∀ e ∈ f.body.parts, ∀ {t u : Ty}, e.store? = some (t, u) →
        t.isReference = true ∧ t.isMutable = true ∧ (t.isVoid = false → u = t.bare)) ∧
    ∀ {scope : Scope} {limit : Weight} {expected : Expected} {span : Span} {a b : Expr}
      {target built : Typed} {p m q : Progress},
        (a.natural scope limit .anything).Gives p target m →
      target.type.isReference = true → target.type.isMutable = true → target.type.isVoid = true →
      ((Expr.natural scope limit expected (.assign span a b)).Gives p built q ↔
        ∃ value, (b.natural scope limit (.required target.type.bare)).Gives m value q ∧
          built = Typed.assign span target value) := by
  refine ⟨?_, Expr.natural_assign_void⟩
  intro tree m scope h f hf e he t u hs
  obtain ⟨⟨K, hK, native, -⟩, checked⟩ := build_native h
  obtain ⟨id, callee, decl, body, q, hc, hg⟩ := checked f hf
  exact ((checkFunction_wellTyped hK native hc hg).body.part e he).store hs

/-- The function `def f(a: mut U16, p: *mut Void) { a = 5; *p = 5; }`. -/
def storing : FunctionDecl :=
  let z : Span := .null
  let five : Expr := .literal z (.number "5")
  ⟨"f", [⟨"a", .mutable z (.named z "U16"), z⟩,
    ⟨"p", .pointer z (.mutable z (.named z "Void")), z⟩], none,
    .block (.mk z [.expr z (.assign z (.identifier z "a") five),
      .expr z (.assign z (.prefixed z .dereference (.identifier z "p")) five)]), z⟩

/-- In `storing` the number is stored as the `U16` that it is converted to, and in `Void` as the
`U8` that it is; and so it is in a variable of `Void`. -/
theorem stores_typed_storing :
    (∃ m scope, (build (Scope.standard .standard).push "m" "m.g"
      ⟨[.function storing], .null⟩).outcome =
        .ok (m, scope) ∧ ∃ f ∈ m.functions, ∃ e ∈ f.body.parts, ∃ d ∈ f.body.parts,
          (∃ u, e.store? = some (Builtin.u16.asMutable.asReference, u) ∧
            u = Builtin.u16.asMutable.asReference.bare) ∧
          d.store? = some (Builtin.void.asMutable.asReference, Builtin.u8)) ∧
    ∃ scope target value p q, target.type = Builtin.void.asMutable.asReference ∧
      value.type = Builtin.u8 ∧
      (Expr.natural scope .largest .anything
        (.assign .null (.identifier .null "a") (.literal .null (.number "5")))).Gives p
          (Typed.assign .null target value) q := by
  constructor
  · have run : (build (Scope.standard .standard).push "m" "m.g"
      ⟨[.function storing], .null⟩).outcome.toOption.map
        (fun r => r.1.functions.map fun f => f.body.parts.filterMap Typed.store?) =
          some [[(Builtin.u16.asMutable.asReference, Builtin.u16),
            (Builtin.void.asMutable.asReference, Builtin.u8)]] := by
      decide +kernel
    obtain ⟨⟨m, scope⟩, accepted, hs⟩ := eq_ok_of_map run
    obtain ⟨f, fs, hfs, hs, -⟩ := List.map_eq_cons_iff.mp hs
    have mem : f ∈ m.functions := by
      rw [show m.functions = f :: fs from hfs]
      exact .head _
    have stored : ∀ x ∈ [(Builtin.u16.asMutable.asReference, Builtin.u16),
        (Builtin.void.asMutable.asReference, Builtin.u8)], ∃ e ∈ f.body.parts, e.store? = some x :=
      fun x hx => List.mem_filterMap.mp (hs ▸ hx)
    obtain ⟨e, he, hes⟩ := stored _ (.head _)
    obtain ⟨d, hd, hds⟩ := stored _ (.tail _ (.head _))
    exact ⟨m, scope, accepted, f, mem, e, he, d, hd,
      ⟨_, hes, ((stores_typed _ _ _).1 accepted f mem e he hes).2.2 (by decide)⟩, hds⟩
  · have run : ((Scope.standard .standard).push.addVariable
          ⟨"a", Builtin.void.asMutable, .void, 0⟩ .null).toOption.map (fun scope =>
        (((Expr.identifier .null "a").natural scope .largest .anything).run
          ⟨.zero, 0⟩).outcome.toOption.map
          fun a => (a.1.type, (((Expr.literal .null (.number "5")).natural scope .largest
            (.required a.1.type.bare)).run a.2).outcome.toOption.map fun b => b.1.type)) =
          some (some (Builtin.void.asMutable.asReference, some Builtin.u8)) := by
      decide +kernel
    obtain ⟨scope, -, run⟩ := eq_ok_of_map run
    obtain ⟨target, m, ha, run⟩ := Check.gives_of_map run
    obtain ⟨ht, run⟩ := Prod.mk.inj run
    obtain ⟨value, q, hb, hu⟩ := Check.gives_of_map run
    have void : target.type.isReference = true ∧ target.type.isMutable = true ∧
        target.type.isVoid = true := by
      rw [show target.type = _ from ht]
      decide
    exact ⟨scope, target, value, _, q, ht, hu,
      ((stores_typed .standard "m" "m.g").2 ha void.1 void.2.1 void.2.2).mpr ⟨value, hb, rfl⟩⟩

end Module

end Gauge
