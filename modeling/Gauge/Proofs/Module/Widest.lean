import Gauge.Proofs.Module.Built
import Gauge.Proofs.Typed.Widest

/-!
# Proofs — what a module knows of its storage

Nothing but its type is known of what a module can write to, wherever in its functions and through
however many pointers (`Module.build_widest`).  A parameter starts with every value of its type, so
this holds where the body of a function starts.
-/

namespace Gauge

namespace Module

/-- A parameter has the range of its type, which `mut` does not change. -/
theorem addParameters_widest : ∀ {ps : List (Parameter × Ty)} {scope scope' : Scope}
    {arguments : List Argument} {p q : Progress}, scope.Widest →
    (∀ x ∈ ps, (scope.resolveType x.1.type).map Ty.bare = .ok x.2) →
    (addParameters scope ps).Gives p (arguments, scope') q → scope'.Widest
  | [], scope, scope', arguments, p, q, hs, _, h => by
    obtain ⟨he, -⟩ := Check.gives_pure.mp h
    cases he
    exact hs
  | (x, t) :: rest, scope, scope', arguments, p, q, hs, hps, h => by
    obtain ⟨inside, scope₁, arguments', hi, ha, hrest, -⟩ := addParameters_cons_gives h
    obtain ⟨inside', hi', rfl⟩ := map_eq_ok.mp (hps _ (.head _))
    cases hi.symm.trans hi'
    have widest : (scope.rangeOf inside.bare).Widest scope.structs inside := by
      rw [Scope.rangeOf, Ty.bare, Structs.rangeOf_withFlags]
      exact Range.widest_rangeOf _ _
    refine addParameters_widest (hs.addVariable widest ha) ?_ hrest
    intro y hy
    rw [Scope.resolveType_congr (Scope.lookupType_addVariable ha)]
    exact hps y (.tail _ hy)

/-- One function: its parameters and its body. -/
theorem checkFunction_widest {K : StructRef → Prop} {result : Ty} {scope : Scope} {callee : Callee}
    {decl : FunctionDecl} {body : Block} {f : Function} {p q : Progress} (hK : StructRef.Distinct K)
    (hs : scope.Native K result) (hv : scope.Widest)
    (hd : signature scope decl = .ok callee.prototype.signature)
    (h : (checkFunction scope callee decl body).Gives p f q) : f.body.Widest scope.structs := by
  obtain ⟨scope', m₁, natural, m₂, ha, hn, hm, -, hres⟩ := checkFunction_gives h
  have native := signature_native hs hd
  rw [hres] at ha hn hm
  obtain ⟨hs', hw⟩ := addParameters_native (hs.enter native.result native.value) ha
  have entered : (scope.push.setReturnType callee.prototype.signature.result).Widest :=
    Scope.Over.setReturnType (Scope.Over.push hv) _
  have hv' : scope'.Widest := by
    refine addParameters_widest entered ?_ ha
    intro x hx
    rw [Scope.resolveType_congr (scope.lookupType_enter _)]
    exact eq_ok_of_mem_zip (signature_parameters hd) x hx
  have structs : scope'.structs = scope.structs := congrArg World.structs hw
  have hx := Expected.native_required native.result native.value
  exact structs ▸ Typed.meet_widest ((Block.natural_yields body hn).widest hK hs' hv' hx) hm

/-- **Nothing but its type is known of what can be written to.**  In a module that is accepted every
expression has the widest range: if its type says that it can be written to, the range is that of
the type, and so is the range of everything that can be written to behind any number of pointers. 
This holds of the expression itself and behind each of its conversions. -/
theorem build_widest {limits : Limits} {name file : String} {tree : ModuleSyntax} {m : Module}
    {scope : Scope}
    (h : (build (Scope.standard limits).push name file tree).outcome = .ok (m, scope)) :
    ∀ f ∈ m.functions, ∀ e ∈ f.body.parts,
      e.range.Widest scope.structs e.type ∧ e.facts.range.Widest scope.structs e.facts.type ∧
        ∀ st ∈ e.facts.chain.steps, st.range.Widest scope.structs st.edge.destination := by
  obtain ⟨reserved, s, t, hb⟩ := built_of_build h
  obtain ⟨⟨K, hK, native, names⟩, -⟩ := build_native h
  have unnamed : scope.Widest := names.mono (fun _ _ => trivial) fun _ hv => hv.elim
  intro f hf e he
  obtain ⟨p, hp, callee, body, q, hc, hg⟩ := checkFunctions_mem hb.check f hf
  obtain ⟨callee', hc', hd⟩ := hb.resolved.signatures p hp
  cases hc.symm.trans hc'
  have typed := (checkFunction_wellTyped hK native hc hg).body.part e he
  have own := checkFunction_widest hK native unnamed hd hg e he
  obtain ⟨facts, node⟩ := e
  obtain ⟨steps, last⟩ := typed.1.linked.widest own
  exact ⟨last, own, steps⟩

/-- The module `def f(a: *mut U8, c: Bool) -> U8 { def b: mut U8 = 3; def q = if c { a } else { &b
}; *q = 200; *q }`. -/
def shared : ModuleSyntax :=
  let z : Span := .null
  let name (x : String) : Expr := .identifier z x
  let byte : TypeExpr := .mutable z (.named z "U8")
  let arms : Expr := .conditional z (name "c") (.mk z [.expr z (name "a")])
    (some (.mk z [.expr z (.prefixed z .addressOf (name "b"))]))
  let body : List Stmt :=
    [.define z "b" (some byte) (some (.literal z (.number "3"))), .define z "q" none (some arms),
     .expr z (.assign z (.prefixed z .dereference (name "q")) (.literal z (.number "200"))),
     .expr z (.prefixed z .dereference (name "q"))]
  ⟨[.function ⟨"f", [⟨"a", .pointer z byte, z⟩, ⟨"c", .named z "Bool", z⟩], some (.named z "U8"),
    .block (.mk z body), z⟩], z⟩

/-- The module `shared` is accepted.  It writes through a pointer that was merged from two, and
knows of the byte there no more than that it is one, although a variable it may be was `3` at first.
-/
theorem build_widest_shared :
    ∃ m scope, (build (Scope.standard .standard).push "m" "m.g" shared).outcome = .ok (m, scope) ∧
      ∃ f ∈ m.functions, ∃ d ∈ f.body.parts, ∃ q ∈ f.body.parts,
        d.type = Builtin.u8.asMutable.asReference ∧
        d.range.behind 0 = some (scope.structs.rangeOf Builtin.u8.asMutable.asReference) ∧
        q.type = .pointerTo Builtin.u8.asMutable ∧
        q.range.behind 1 = some (scope.structs.rangeOf Builtin.u8.asMutable) := by
  have run : (build (Scope.standard .standard).push "m" "m.g" shared).outcome.toOption.map
      (fun r => r.1.functions.map fun f =>
        (f.body.parts.any fun d => decide (d.type = Builtin.u8.asMutable.asReference)) &&
          f.body.parts.any fun q => decide (q.type = .pointerTo Builtin.u8.asMutable)) =
            some [true] := by
    decide +kernel
  obtain ⟨⟨m, scope⟩, accepted, hs⟩ := eq_ok_of_map run
  obtain ⟨f, fs, hfs, hs, -⟩ := List.map_eq_cons_iff.mp hs
  have mem : f ∈ m.functions := by
    rw [show m.functions = f :: fs from hfs]
    exact .head _
  simp only [Bool.and_eq_true, List.any_eq_true, decide_eq_true_eq] at hs
  obtain ⟨⟨d, hd, dtype⟩, q, hq, qtype⟩ := hs
  have widest := build_widest accepted f mem
  exact ⟨m, scope, accepted, f, mem, d, hd, q, hq, dtype,
    (widest d hd).1 0 _ (congrArg some dtype) rfl, qtype,
    (widest q hq).1 1 _ (by rw [qtype]; rfl) rfl⟩

end Module

end Gauge
