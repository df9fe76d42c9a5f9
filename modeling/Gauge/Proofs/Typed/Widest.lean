import Gauge.Proofs.Range.Join
import Gauge.Proofs.Typed.Parts

/-!
# Proofs — ranges of what can be written to

Assignments do not change what is known of a variable, so nothing may be known of what can be
written to but its type.  `Range.Widest` says so of a value and of everything that it leads to
through pointers.  The ranges in a tree that checking builds are of this kind
(`Expr.natural_widest`, `Block.natural_widest`), if those of the variables in the scope are; and
those of variables that are defined on the way are as well.
-/

namespace Gauge

/-- The type behind so many pointers. -/
def Ty.behind : Nat → Ty → Option Ty
  | 0, t => some t
  | n + 1, .pointer _ _ p => p.behind n
  | _ + 1, _ => none

/-- The range behind so many pointers. -/
def Range.behind : Nat → Range → Option Range
  | 0, r => some r
  | n + 1, .pointer r _ => r.behind n
  | _ + 1, _ => none

/-- Of all that can be written to, the value itself or what is behind so many pointers, nothing is
known but the type. -/
def Range.Widest (s : Structs) (r : Range) (t : Ty) : Prop :=
  ∀ (n : Nat) (u : Ty), t.behind n = some u → u.isMutable = true → r.behind n = some (s.rangeOf u)

theorem Ty.behind_withFlags (f : Flags) (t : Ty) (n : Nat) :
    (t.withFlags f).behind (n + 1) = t.behind (n + 1) := by
  cases t <;> rfl

theorem Ty.not_mutable_of_value {t : Ty} (h : t.isFlagged = false) : t.isMutable = false :=
  (Bool.or_eq_false_iff.mp h).2

@[simp] theorem Structs.rangeOf_withFlags (s : Structs) (f : Flags) (t : Ty) :
    s.rangeOf (t.withFlags f) = s.rangeOf t := by
  cases t <;> rfl

theorem Structs.behind_rangeOf {s : Structs} : ∀ {n : Nat} {t u : Ty}, t.behind n = some u →
    (s.rangeOf t).behind n = some (s.rangeOf u)
  | 0, t, u, h => by
    cases h
    rfl
  | n + 1, .pointer _ _ p, u, h => behind_rangeOf (n := n) (t := p) h

namespace Range

variable {s : Structs} {r a b : Range} {t : Ty} {f : Flags} {stamp : Stamp}

theorem widest_rangeOf (s : Structs) (t : Ty) : (s.rangeOf t).Widest s t :=
  fun _ _ h _ => Structs.behind_rangeOf h

/-- Flags may go, but a value does not become one that can be written to. -/
theorem Widest.withFlags (h : r.Widest s t) (hf : f.mutable = true → t.isMutable = true) :
    r.Widest s (t.withFlags f) := by
  intro n u hu hm
  cases n with
  | zero =>
    cases hu
    rw [Structs.rangeOf_withFlags]
    rw [Ty.isMutable, Ty.flags_withFlags] at hm
    exact h 0 t rfl (hf hm)
  | succ n =>
    rw [Ty.behind_withFlags] at hu
    exact h (n + 1) u hu hm

theorem Widest.bare (h : r.Widest s t) : r.Widest s t.bare := h.withFlags nofun

theorem Widest.asReference (h : r.Widest s t) : r.Widest s t.asReference := h.withFlags fun hm => hm

theorem Widest.notReference (h : r.Widest s t) : r.Widest s t.notReference :=
  h.withFlags fun hm => hm

/-- What is known of a value is known of a variable that holds it, if that cannot be written to. -/
theorem Widest.of_bare (h : r.Widest s t.bare) (hm : t.isMutable = false) : r.Widest s t := by
  have flagged := h.withFlags (f := t.flags) fun hf => by
    rw [Ty.isMutable, hf] at hm
    cases hm
  rwa [Ty.bare, Ty.withFlags_withFlags, Ty.withFlags_flags] at flagged

theorem Widest.pointed {initialized : Bools}
    (h : (Range.pointer r initialized).Widest s (.pointer f stamp t)) : r.Widest s t :=
  fun n u hu hm => h (n + 1) u hu hm

theorem Widest.pointer {initialized : Bools} (h : r.Widest s t)
    (hf : f.mutable = false) : (Range.pointer r initialized).Widest s (.pointer f stamp t) := by
  intro n u hu hm
  cases n with
  | zero =>
    cases hu
    have hm : f.mutable = true := hm
    rw [hf] at hm
    cases hm
  | succ n => exact h n u hu hm

/-- A pointer through which nothing can be written any more. -/
theorem Widest.dropMutable (h : r.Widest s (.pointer f stamp t)) :
    r.Widest s (.pointerTo t.notMutable) := by
  intro n u hu hm
  cases n with
  | zero =>
    cases hu
    cases hm
  | succ n =>
    have hu : t.notMutable.behind n = some u := hu
    cases n with
    | zero =>
      cases hu
      rw [Ty.notMutable, Ty.isMutable, Ty.flags_withFlags] at hm
      cases hm
    | succ n =>
      rw [Ty.notMutable, Ty.behind_withFlags] at hu
      exact h (n + 2) u hu hm

/-- Nothing has to hold of values that lead nowhere. -/
theorem widest_of_value (hp : t.pointed? = none) (hm : t.isMutable = false) : r.Widest s t := by
  intro n u hu hu'
  cases n with
  | zero =>
    cases hu
    rw [hm] at hu'
    cases hu'
  | succ n =>
    cases t with
    | pointer => cases hp
    | _ => cases hu

theorem widest_builtin (h : t ∈ Builtin.all) : r.Widest s t := by
  obtain ⟨c, rfl, -⟩ := Builtin.scalar_of_mem h
  exact widest_of_value rfl rfl

theorem widest_pointerTo_void : r.Widest s (.pointerTo Builtin.void) := by
  intro n u hu hm
  cases n with
  | zero =>
    cases hu
    cases hm
  | succ n =>
    cases n with
    | zero =>
      cases hu
      cases hm
    | succ n => cases hu

/-! ### Unions -/

/-- The union of pointers leads to the union of what they lead to. -/
theorem behind_merge : ∀ {n : Nat} {a b r x y : Range}, a.merge b = .ok r → a.behind n = some x →
    b.behind n = some y → ∃ z, x.merge y = .ok z ∧ r.behind n = some z
  | 0, a, b, r, x, y, h, ha, hb => by
    cases ha
    cases hb
    exact ⟨r, h, rfl⟩
  | n + 1, .pointer p v, .pointer q w, r, x, y, h, ha, hb => by
    rw [merge] at h
    obtain ⟨pointed, hp, h⟩ := bind_eq_ok.mp h
    cases h
    exact behind_merge (n := n) hp ha hb

theorem Widest.merge (ha : a.Widest s t) (hb : b.Widest s t) (h : a.merge b = .ok r) :
    r.Widest s t := by
  intro n u hu hm
  obtain ⟨z, hz, hr⟩ := behind_merge h (ha n u hu hm) (hb n u hu hm)
  rw [merge_self] at hz
  cases hz
  exact hr

end Range

/-! ### Conversions -/

/-- A conversion forgets nothing of what can be written to. -/
theorem Builtin.rangeAfter_widest {s : Structs} {a : Ty} {e : Edge} {r r' : Range}
    (ho : casts.Offers s a e) (h : r.Widest s a) (hr : s.rangeAfter e r = .ok r') :
    r'.Widest s e.destination := by
  rcases ho with ⟨g, hg, -, he⟩ | ⟨f, hf, he⟩ | ⟨-, rfl⟩
  · exact Range.widest_builtin (mem_all_of_values ((mem_castGroups hg).2 e he).1.destination)
  · simp only [casts, List.mem_cons, List.not_mem_nil, or_false] at hf
    obtain ⟨stamp, pointed, rfl, -⟩ := CastFamily.edge?_cases he
    rcases hf with rfl | rfl
    · simp only [CastFamily.edge?, Flags.none] at he
      split at he
      · cases he
        cases hr
        exact h.dropMutable
      · cases he
    · cases he
      exact Range.widest_builtin (mem_all_of_values bool_mem)
  · cases hr
    exact h.bare

/-- So do conversions one after the other. -/
theorem Step.Linked.widest {s : Structs} : ∀ {steps : List Step} {t : Ty} {r : Range},
    r.Widest s t →
    Step.Linked id s (fun e => Builtin.casts.Offers s e.source e) t r steps →
    (∀ st ∈ steps, st.range.Widest s st.edge.destination) ∧
      (Step.rangeAfter r steps).Widest s (Step.typeAfter t steps)
  | [], t, r, h, _ => ⟨nofun, h⟩
  | st :: steps, t, r, h, linked => by
    obtain ⟨hsource, ho, hr, linked⟩ := linked
    have hsource : st.edge.source = t := hsource
    have first := Builtin.rangeAfter_widest (hsource ▸ ho) h hr
    obtain ⟨rest, last⟩ := Step.Linked.widest first linked
    rw [Step.rangeAfter_cons, Step.typeAfter_cons]
    exact ⟨List.forall_mem_cons.mpr ⟨first, rest⟩, last⟩

/-- Before its conversions an expression has the widest range, and so has every expression within
it. -/
def Typed.Widest (s : Structs) (e : Typed) : Prop :=
  ∀ x ∈ e.parts, x.facts.range.Widest s x.facts.type

def Node.Widest (s : Structs) (n : Node) : Prop :=
  ∀ x ∈ n.parts, x.facts.range.Widest s x.facts.type

def TypedStmt.Widest (s : Structs) (st : TypedStmt) : Prop :=
  ∀ x ∈ st.parts, x.facts.range.Widest s x.facts.type

namespace Typed

variable {K : StructRef → Prop} {s : Structs} {result target : Ty} {scope : Scope} {limit : Weight}
  {span : Span} {expected : Expected} {e e' : Typed} {p q : Progress}

theorem widest_mk {f : Facts} {n : Node} :
    (Typed.mk f n).Widest s ↔ f.range.Widest s f.type ∧ n.Widest s := by
  rw [Typed.Widest, Typed.parts]
  exact List.forall_mem_cons

theorem widest_plain {n : Node} {t : Ty} {r : Range} (hr : r.Widest s t) (hn : n.Widest s) :
    (plain n t r span).Widest s := widest_mk.mpr ⟨hr, hn⟩

/-- It still has after its conversions. -/
theorem Widest.range (h : e.Widest s) (ht : e.WellTyped s result) : e.range.Widest s e.type := by
  obtain ⟨f, n⟩ := e
  exact (ht.1.linked.widest (widest_mk.mp h).1).2

/-! ### One node at a time -/

/-- A conversion knows no more of what is behind a pointer. -/
theorem Converted.widest {mandatory explicit : Bool} (h : e.Widest scope.structs)
    (hc : Converted scope target mandatory explicit e e') : e'.Widest scope.structs := by
  cases hc with
  | same _ | kept _ => exact h
  | chain _ _ =>
    obtain ⟨f, n⟩ := e
    obtain ⟨own, node⟩ := widest_mk.mp h
    exact widest_mk.mpr ⟨own, node⟩
  | adopted ha =>
    cases ha with
    | integer _ hf hi _ =>
      refine widest_mk.mpr ⟨Range.widest_of_value ?_ (Ty.not_mutable_of_value hf),
        nofun⟩
      cases target with
      | scalar => rfl
      | _ => cases hi
    | null _ hf hp hr =>
      refine widest_mk.mpr ⟨?_, nofun⟩
      cases target with
      | pointer f stamp t =>
        cases hr
        exact (Range.widest_rangeOf _ t).pointer (Ty.not_mutable_of_value hf)
      | _ => cases hp

theorem meet_widest (h : e.Widest scope.structs) (hm : (e.meet scope limit expected).Gives p e' q) :
    e'.Widest scope.structs := by
  obtain ⟨-, ⟨rfl, -⟩ | ⟨t, -, -, hc⟩⟩ := meet_gives hm
  · exact h
  · exact hc.widest h

theorem decay_widest (h : e.Widest scope.structs) (hd : (e.decay scope limit).Gives p e' q) :
    e'.Widest scope.structs := by
  obtain ⟨-, ⟨rfl, -⟩ | hc⟩ := decay_gives hd
  · exact h
  · exact hc.widest h

theorem asValue_widest (h : e.Widest scope.structs) (hm : (e.asValue scope limit).Gives p e' q) :
    e'.Widest scope.structs := meet_widest h hm

theorem unary_widest {op : UnaryOp} (hs : scope.Native K result) (h : e.Widest scope.structs)
    (hu : (unary scope limit expected span op e).Gives p e' q) : e'.Widest scope.structs := by
  obtain ⟨-, o, ho, t, operand, r, hop, -, hc, -, rfl⟩ := unary_gives hu
  rw [hs.names.overloads] at ho
  obtain ⟨u, hu, -, hres, -⟩ := Builtin.unary_overload ho hop
  refine widest_plain (Range.widest_builtin ?_) (hc.widest h)
  rw [hres]
  exact Builtin.mem_all_of_values hu

/-- The result of an operator is of a builtin type. -/
theorem binary_widest {op : BinaryOp} {left right : Typed} (hs : scope.Native K result)
    (hl : left.Widest scope.structs) (hr : right.Widest scope.structs)
    (hb : (binary scope limit expected span op left right).Gives p e' q) :
    e'.Widest scope.structs := by
  obtain ⟨-, o, ho, t, u, left', right', r, hop, -, -, hcl, hcr, -, rfl⟩ := binary_gives hb
  rw [hs.names.overloads] at ho
  obtain ⟨w, hw, -, hres, -⟩ := Builtin.binary_overload ho hop
  refine widest_plain (Range.widest_builtin ?_)
    (List.forall_mem_append.mpr ⟨hcl.widest hl, hcr.widest hr⟩)
  rcases hres with hres | hres
  · rw [hres]
    exact Builtin.mem_all_of_values hw
  · rw [hres]
    exact Builtin.mem_all_of_values Builtin.bool_mem

theorem addressOf_widest (ht : e.WellTyped s result) (h : e.Widest s)
    (ha : (addressOf span e).Gives p e' q) : e'.Widest s := by
  obtain ⟨-, -, rfl⟩ := addressOf_gives ha
  exact widest_plain ((h.range ht).notReference.pointer rfl) h

/-- What a pointer is known to lead to is known of the storage there. -/
theorem dereference_widest (ht : e'.WellTyped scope.structs result) (h : e.Widest scope.structs)
    (hd : (dereference scope limit span e).Gives p e' q) : e'.Widest scope.structs := by
  obtain ⟨-, pointed, operand, r, -, hc, rfl, hr⟩ := dereference_gives hd
  have ho : operand.Widest scope.structs := by
    rcases hc with ⟨rfl, -⟩ | hc
    · exact h
    · exact hc.widest h
  refine widest_plain ?_ ho
  rcases hr with ⟨initialized, hr⟩ | rfl
  · obtain ⟨-, typed, pointed', hp, htype⟩ := ht
    have behind := ho.range typed
    rw [hr, hp] at behind
    rw [show pointed.asReference = pointed'.asReference from htype]
    exact behind.pointed.asReference
  · exact (Range.widest_rangeOf _ _).asReference

theorem Passed.widest {es es' : List Typed} {ts : List Ty} (hp : Passed scope es ts es')
    (h : ∀ e ∈ es, e.Widest scope.structs) :
    ∀ x ∈ partsAll es', x.facts.range.Widest scope.structs x.facts.type := by
  induction hp with
  | nil => exact nofun
  | cons first rest ih =>
    refine List.forall_mem_append.mpr ⟨first.widest (h _ (.head _)), ih ?_⟩
    exact fun e he => h e (.tail _ he)

theorem call_widest {name : String} {ids : List Nat} {es : List Typed}
    (h : ∀ e ∈ es, e.Widest scope.structs)
    (hc : (call scope limit expected span name ids es).Gives p e' q) : e'.Widest scope.structs := by
  obtain ⟨-, id, -, c, es', -, hp, rfl⟩ := call_gives hc
  exact widest_plain (Range.widest_rangeOf _ _) (hp.widest h)

/-- The arms have one type, so what is known of either, or of both, is known of the whole. -/
theorem armsRange_widest {condition thenArm elseArm : Typed} {t : Ty} {r : Range}
    (ht : thenArm.range.Widest scope.structs t) (he : elseArm.range.Widest scope.structs t)
    (htype : thenArm.type = t)
    (h : (armsRange scope condition thenArm elseArm).outcome = .ok r) :
    r.Widest scope.structs t := by
  have whole : (scope.rangeOf thenArm.type).Widest scope.structs t := by
    rw [htype]
    exact Range.widest_rangeOf _ _
  unfold armsRange at h
  split at h
  · cases h
    exact whole
  · split at h
    · cases h
      exact he
    · split at h
      · cases h
        exact ht
      · obtain ⟨same, -, h⟩ := Traced.bind_ok.mp h
        cases same with
        | false =>
          cases h
          exact whole
        | true =>
          rw [if_neg (by simp)] at h
          split at h
          · cases h
            exact he
          · cases h
            exact ht
          · exact ht.merge he h

/-- A block knows as little as what it gives. -/
theorem block_widest {ts : List TypedStmt} {r : Option Typed}
    (ht : (block scope expected span ts r).WellTyped scope.structs result)
    (hts : ∀ x ∈ TypedStmt.partsAll ts, x.facts.range.Widest scope.structs x.facts.type)
    (hr : ∀ e, r = some e → e.Widest scope.structs) :
    (block scope expected span ts r).Widest scope.structs := by
  rcases block_cases scope expected span ts r with ⟨e, rfl, he⟩ | ⟨rfl, t, -, -, he⟩ | ⟨rfl, -, he⟩
  · rw [he] at ht ⊢
    exact widest_plain ((hr e rfl).range ht.2.2.1) (List.forall_mem_append.mpr ⟨hts, hr e rfl⟩)
  · rw [he]
    exact widest_plain (Range.widest_rangeOf _ _) hts
  · rw [he]
    exact widest_plain (Range.widest_builtin Builtin.void_mem) hts

end Typed

/-- The ranges that the variables of a scope are known to have are the widest. -/
def Scope.Widest (s : Scope) : Prop :=
  s.Over (fun _ => True) fun v => v.range.Widest s.structs v.type

theorem Scope.Widest.addVariable {s s' : Scope} {v : Variable} {position : Position} (h : s.Widest)
    (hv : v.range.Widest s.structs v.type) (ha : s.addVariable v position = .ok s') :
    s'.Widest := by
  have structs : s'.structs = s.structs := congrArg World.structs (Scope.addVariable_world ha).1
  rw [Scope.Widest, structs]
  exact Scope.Over.addVariable h hv ha

/-- A variable is defined by a value of its type, of which nothing is taken over if it can be
written to. -/
theorem TypedStmt.define_widest {scope scope' : Scope} {result type : Ty} {name : String}
    {init : Option Typed} {slot : Nat} {position : Position} (hs : scope.Widest)
    (ht : (TypedStmt.define slot name type init).WellTyped scope.structs result)
    (hi : ∀ e, init = some e → e.Widest scope.structs)
    (ha : scope.addVariable ⟨name, type, definedRange scope type init, slot⟩ position =
      .ok scope') :
    (TypedStmt.define slot name type init).Widest scope.structs ∧ scope'.Widest := by
  cases init with
  | none => exact ⟨nofun, hs.addVariable (Range.widest_rangeOf _ _) ha⟩
  | some e =>
    obtain ⟨typed, -, htype⟩ := ht
    refine ⟨hi e rfl, hs.addVariable ?_ ha⟩
    show (if type.isMutable then scope.rangeOf type else e.range).Widest scope.structs type
    split
    · exact Range.widest_rangeOf _ _
    · next hm =>
      have known := (hi e rfl).range typed
      rw [htype] at known
      exact known.of_bare (Bool.not_eq_true _ ▸ hm)

/-! ### Whole trees -/

section Rules

variable {K : StructRef → Prop} {result : Ty}

mutual

/-- By induction on the rules; which types the parts have is known from `Expr.Yields.typed`. -/
theorem Expr.Yields.widest {s : Scope} {w : Weight} {x : Expected} {e : Expr} {p q : Progress}
    {b : Typed} (hK : StructRef.Distinct K) (h : Expr.Yields s w x e p b q) (hs : s.Native K result)
    (hv : s.Widest) (hx : x.Native K) : b.Widest s.structs := by
  have typed := (h.typed hK hs hx).typed
  match h, hs, hv, hx, typed with
  | .literal h, _, _, _, _ =>
    obtain ⟨-, ⟨n, r, -, rfl⟩ | ⟨b, rfl⟩ | ⟨r, rfl⟩⟩ := Literal.typed_gives h
    · exact Typed.widest_plain (Range.widest_builtin (Builtin.smallestUnsigned_mem_all n)) nofun
    · exact Typed.widest_plain (Range.widest_builtin (Builtin.mem_all_of_values Builtin.bool_mem))
        nofun
    · exact Typed.widest_plain Range.widest_pointerTo_void nofun
  | .identifier h, _, hv, _, _ =>
    obtain ⟨-, v, hl, rfl⟩ := Typed.ofName_gives h
    exact Typed.widest_plain (hv.lookupVariable hl).asReference nofun
  | .unary he h, hs, hv, _, _ =>
    exact Typed.unary_widest hs (he.widest hK hs hv Expected.native_anything) h
  | .addressOf he h, hs, hv, _, _ =>
    exact Typed.addressOf_widest (he.typed hK hs Expected.native_anything).typed
      (he.widest hK hs hv Expected.native_anything) h
  | .dereference he h, hs, hv, _, typed =>
    exact Typed.dereference_widest typed (he.widest hK hs hv Expected.native_anything) h
  | .binary hl hr h, hs, hv, _, _ =>
    exact Typed.binary_widest hs (hl.widest hK hs hv Expected.native_anything)
      (hr.widest hK hs hv Expected.native_anything) h
  | .logical hl hl' hr hr', hs, hv, _, _ =>
    have wl := Typed.meet_widest (hl.widest hK hs hv Expected.native_bool) hl'
    have wr := Typed.meet_widest (hr.widest hK hs hv Expected.native_bool) hr'
    exact Typed.widest_plain (Range.widest_builtin (Builtin.mem_all_of_values Builtin.bool_mem))
      (List.forall_mem_append.mpr ⟨wl, wr⟩)
  | .assign hl _ _ hr hr', hs, hv, _, _ =>
    have proper := hl.typed hK hs Expected.native_anything
    have hx := Expected.native_required (Ty.native_bare.mpr proper.native) (Ty.isFlagged_bare _)
    have wl := hl.widest hK hs hv Expected.native_anything
    have wr := Typed.meet_widest (hr.widest hK hs hv hx) hr'
    exact Typed.widest_plain (wl.range proper.typed) (List.forall_mem_append.mpr ⟨wl, wr⟩)
  | .call _ hes h, hs, hv, _, _ => exact Typed.call_widest (hes.widest hK hs hv) h
  | .conditional hc hc' ht, hs, hv, _, _ =>
    have wc := Typed.meet_widest (hc.widest hK hs hv Expected.native_bool) hc'
    have wt := ht.widest hK hs hv Expected.native_void
    exact Typed.widest_plain (Range.widest_builtin Builtin.void_mem)
      (List.forall_mem_append.mpr ⟨wc, wt⟩)
  | .choice hc hc' ht ht' hd he he' hr, hs, hv, hx, typed =>
    obtain ⟨-, -, htt, het, -, -, htype, hf⟩ := typed
    have pt := (ht.typed hK hs hx).meet hK hs.names.casts hx ht'
    have native := (pt.decay hK hs.names.casts hd).1.native
    have wc := Typed.meet_widest (hc.widest hK hs hv Expected.native_bool) hc'
    have wt := Typed.decay_widest (Typed.meet_widest (ht.widest hK hs hv hx) ht') hd
    have we := Typed.meet_widest (he.widest hK hs hv (Expected.native_required native hf)) he'
    refine Typed.widest_plain ?_ (List.forall_mem_append.mpr
      ⟨List.forall_mem_append.mpr ⟨wc, wt⟩, we⟩)
    refine Typed.armsRange_widest (wt.range htt) ?_ rfl hr
    have known := we.range het
    rwa [htype] at known
  | .block h, hs, hv, hx, _ => exact h.widest hK hs hv hx
  | .cast _ he hc _, hs, hv, _, typed =>
    have wo := hc.widest (he.widest hK hs hv Expected.native_anything)
    exact Typed.widest_plain (wo.range typed.2.1) wo

theorem Expr.YieldsAll.widest {s : Scope} {w : Weight} {es : List Expr} {p q : Progress}
    {as : List Typed} (hK : StructRef.Distinct K) (h : Expr.YieldsAll s w es p as q)
    (hs : s.Native K result) (hv : s.Widest) : ∀ a ∈ as, a.Widest s.structs := by
  match h, hs, hv with
  | .nil, _, _ => exact nofun
  | .cons h rest, hs, hv =>
    exact List.forall_mem_cons.mpr
      ⟨h.widest hK hs hv Expected.native_anything, rest.widest hK hs hv⟩

theorem Block.Yields.widest {s : Scope} {w : Weight} {x : Expected} {b : Block} {p q : Progress}
    {e : Typed} (hK : StructRef.Distinct K) (h : Block.Yields s w x b p e q)
    (hs : s.Native K result) (hv : s.Widest) (hx : x.Native K) : e.Widest s.structs := by
  have typed := (h.typed hK hs hx).typed
  match h, hs, hv, hx, typed with
  | .mk h, hs, hv, hx, typed =>
    obtain ⟨hts, hr⟩ := h.widest hK hs.push hv.push hx
    exact Typed.block_widest typed hts hr

/-- The statements of a block. -/
theorem Stmt.YieldsAll.widest {s : Scope} {w : Weight} {x : Expected} {ss : List Stmt}
    {p q : Progress} {ts : List TypedStmt} {r : Option Typed} (hK : StructRef.Distinct K)
    (h : Stmt.YieldsAll s w x ss p ts r q) (hs : s.Native K result) (hv : s.Widest)
    (hx : x.Native K) :
    (∀ a ∈ TypedStmt.partsAll ts, a.facts.range.Widest s.structs a.facts.type) ∧
      ∀ e, r = some e → e.Widest s.structs := by
  match h, hs, hv, hx with
  | .nil, _, _, _ => exact ⟨nofun, nofun⟩
  | .last _ he hm, hs, hv, hx =>
    refine ⟨nofun, ?_⟩
    rintro _ ⟨⟩
    exact Typed.meet_widest (he.widest hK hs hv hx) hm
  | .cons _ h rest, hs, hv, hx =>
    obtain ⟨-, hs', hw⟩ := h.typed hK hs
    obtain ⟨first, hv'⟩ := h.widest hK hs hv
    obtain ⟨hts, hr⟩ := rest.widest hK hs' hv' hx
    rw [Scope.structs, hw] at hts hr
    exact ⟨List.forall_mem_append.mpr ⟨first, hts⟩, hr⟩

/-- A statement, and the variables it leaves. -/
theorem Stmt.Yields.widest {s s' : Scope} {st : Stmt} {p q : Progress} {t : TypedStmt}
    (hK : StructRef.Distinct K) (h : Stmt.Yields s st p t s' q) (hs : s.Native K result)
    (hv : s.Widest) : t.Widest s.structs ∧ s'.Widest := by
  have typed := (h.typed hK hs).typed
  match h, hs, hv, typed with
  | .expr h, hs, hv, _ => exact ⟨h.widest hK hs hv Expected.native_void, hv⟩
  | .declare _ _ ha, _, hv, typed => exact TypedStmt.define_widest hv typed nofun ha
  | .define (t := t) ht he hm hval _ ha, hs, hv, typed =>
    have hx :=
      Expected.native_required (Ty.native_bare.mpr (hs.resolveType ht)) (Ty.isFlagged_bare t)
    have wm := Typed.meet_widest (he.widest hK hs hv hx) hm
    refine TypedStmt.define_widest hv typed ?_ ha
    rintro _ ⟨⟩
    exact Typed.asValue_widest wm hval
  | .infer he hval _ ha, hs, hv, typed =>
    refine TypedStmt.define_widest hv typed ?_ ha
    rintro _ ⟨⟩
    exact Typed.asValue_widest (he.widest hK hs hv Expected.native_anything) hval
  | .leave _ _, _, hv, _ => exact ⟨nofun, hv⟩
  | .ret ht he hm _, hs, hv, _ =>
    obtain ⟨-, native, hf⟩ := hs.returns _ ht
    have hx := TypedStmt.returnExpected_native native hf
    exact ⟨Typed.meet_widest (he.widest hK hs hv hx) hm, hv⟩
  | .loop hc hm hb, hs, hv, _ =>
    have wc := Typed.meet_widest (hc.widest hK hs hv Expected.native_bool) hm
    exact ⟨List.forall_mem_append.mpr ⟨wc, hb.widest hK hs hv Expected.native_void⟩, hv⟩

end

end Rules

end Gauge
