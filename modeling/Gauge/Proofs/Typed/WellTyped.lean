import Gauge.Proofs.Scope
import Gauge.Proofs.Ty.Native
import Gauge.Proofs.Typed.Rules

/-!
# Proofs — checked trees are well typed

`Typed.WellTyped` says what the types in a tree have to do with each other: a chain of conversions
starts at the type of its node and goes on where it left off, operators are applied to operands of
the types that one of their overloads takes, and so on.  It is about the very same types, not types
that compare equal.

The trees that checking builds in a scope of a program are well typed (`Expr.natural_typed`,
`Block.natural_typed`).  The proof is one induction over the syntax; the scope only has to name
types of the program (`Scope.Native`).
-/

namespace Gauge

variable {K : StructRef → Prop}

/-- The conversions of a node start at its type and range, each goes on where the one before it left
off, all of them are conversions that exist, and the recorded weight is what they weigh together; a
chain that is attached has steps. -/
structure Facts.WellTyped (s : Structs) (f : Facts) : Prop where
  attached : f.chain = .identity ∨ f.chain.steps ≠ []
  linked : Step.Linked id s (fun e => Builtin.casts.Offers s e.source e) f.type f.range
    f.chain.steps
  weight : f.chain.weight = Step.totalWeight f.chain.steps

mutual

/-- The types in an expression of a function with the given result fit together. -/
def Typed.WellTyped (s : Structs) (result : Ty) : Typed → Prop
  | .mk f n => f.WellTyped s ∧ n.WellTyped s result f.type

/-- The types in an expression of the given type fit together. -/
def Node.WellTyped (s : Structs) (result : Ty) (type : Ty) : Node → Prop
  | .constant (.integer _) => type.isInteger = true ∧ type.isFlagged = false
  | .constant (.bool _) => type = Builtin.bool
  | .constant .null => type.isPointer = true ∧ type.isFlagged = false
  | .variable _ _ => type.isReference = true
  | .unary op e =>
    e.WellTyped s result ∧
      ∃ o ∈ Builtin.overloads, o.operator = .unary op ∧ o.parameters = [e.type] ∧ type = o.result
  | .addressOf e =>
    e.WellTyped s result ∧ e.type.isReference = true ∧ type = .pointerTo e.type.notReference
  | .dereference e =>
    e.WellTyped s result ∧ ∃ pointed, e.type = .pointerTo pointed ∧ type = pointed.asReference
  | .binary op a b t =>
    a.WellTyped s result ∧ b.WellTyped s result ∧
      ∃ o ∈ Builtin.overloads, o.operator = .binary op ∧ o.parameters = [a.type, b.type] ∧
        t ∈ o.parameters ∧ type = o.result
  | .logical _ a b =>
    a.WellTyped s result ∧ b.WellTyped s result ∧ a.type = Builtin.bool ∧ b.type = Builtin.bool ∧
      type = Builtin.bool
  | .assign a b =>
    a.WellTyped s result ∧ b.WellTyped s result ∧ a.type.isReference = true ∧
      a.type.isMutable = true ∧ (a.type.isVoid = false → b.type = a.type.bare) ∧ type = a.type
  | .call c es =>
    Typed.WellTypedAll s result es ∧ es.map Typed.type =
      c.prototype.signature.parameters.map Ty.bare ∧
      type = c.prototype.signature.result
  | .conditional c t none =>
    c.WellTyped s result ∧ t.WellTyped s result ∧ c.type = Builtin.bool ∧ type = Builtin.void
  | .conditional c t (some e) =>
    c.WellTyped s result ∧ t.WellTyped s result ∧ e.WellTyped s result ∧ c.type = Builtin.bool ∧
      t.type = type ∧ e.type = type ∧ type.isFlagged = false
  | .block ss none =>
    TypedStmt.WellTypedAll s result ss ∧
      ((Node.block ss none).diverges = true ∨ type = Builtin.void)
  | .block ss (some r) => TypedStmt.WellTypedAll s result ss ∧ r.WellTyped s result ∧ type = r.type
  | .cast e => e.WellTyped s result ∧ type = e.type

def Typed.WellTypedAll (s : Structs) (result : Ty) : List Typed → Prop
  | [] => True
  | e :: es => e.WellTyped s result ∧ Typed.WellTypedAll s result es

def TypedStmt.WellTyped (s : Structs) (result : Ty) : TypedStmt → Prop
  | .expr e => e.WellTyped s result
  | .define _ _ t none => t.isVoid = false
  | .define _ _ t (some e) => e.WellTyped s result ∧ t.isVoid = false ∧ e.type = t.bare
  | .ret none => result.isVoid = true
  | .ret (some e) =>
    e.WellTyped s result ∧ (result.isVoid = false → e.type = result) ∧
      (result.isVoid = true → e.type.isVoid = true)
  | .loop c b => c.WellTyped s result ∧ b.WellTyped s result ∧ c.type = Builtin.bool

def TypedStmt.WellTypedAll (s : Structs) (result : Ty) : List TypedStmt → Prop
  | [] => True
  | st :: sts => st.WellTyped s result ∧ TypedStmt.WellTypedAll s result sts

end

/-! ### Conversions -/

theorem Facts.wellTyped_identity {s : Structs} {t : Ty} {r : Range} {span : Span} :
    Facts.WellTyped s ⟨t, r, .identity, span⟩ := ⟨.inl rfl, trivial, rfl⟩

/-- A chain without steps that weighs what its steps do is no conversion at all. -/
theorem Chain.attached_of_weight {c : Chain} (h : c.weight = Step.totalWeight c.steps) :
    c = .identity ∨ c.steps ≠ [] := by
  obtain ⟨steps, weight⟩ := c
  cases steps with
  | nil =>
    obtain rfl : weight = .zero := h
    exact .inl rfl
  | cons _ _ => exact .inr (List.cons_ne_nil _ _)

namespace Typed

variable {s : Structs} {K : StructRef → Prop} {result target : Ty} {scope : Scope}
  {mandatory explicit : Bool} {e e' : Typed}

theorem wellTyped_plain {n : Node} {t : Ty} {r : Range} {span : Span}
    (h : n.WellTyped s result t) : (plain n t r span).WellTyped s result :=
  ⟨Facts.wellTyped_identity, h⟩

/-- A conversion keeps an expression well typed. -/
theorem Converted.wellTyped (hK : StructRef.Distinct K) (hs : scope.world.casts = Builtin.casts)
    (h : Converted scope target mandatory explicit e e') (ht : e.type.Native K)
    (he : e.WellTyped scope.structs result) : e'.WellTyped scope.structs result := by
  cases h with
  | same _ => exact he
  | adopted ha =>
    cases ha with
    | integer hc hf hi _ =>
      refine ⟨⟨he.1.attached, ?_, he.1.weight⟩, hi, hf⟩
      simp only [hc]
      trivial
    | null hc hf hp _ =>
      refine ⟨⟨he.1.attached, ?_, he.1.weight⟩, hp, hf⟩
      simp only [hc]
      trivial
  | @chain c _ hc =>
    obtain ⟨f, n⟩ := e
    rw [Scope.search, hs] at hc
    obtain ⟨hl, hw, -⟩ :=
      CastTable.search_linked (Builtin.casts_closed_native hK scope.structs) ht hc
    have weight : f.chain.weight + c.weight = Step.totalWeight (f.chain.steps ++ c.steps) := by
      rw [Step.totalWeight_append, he.1.weight, hw]
    exact ⟨⟨Chain.attached_of_weight weight, Step.linked_append.mpr ⟨he.1.linked, hl⟩, weight⟩,
      he.2⟩
  | kept _ => exact he

/-- A conversion leads to a type of the program. -/
theorem Converted.native (hK : StructRef.Distinct K) (hs : scope.world.casts = Builtin.casts)
    (h : Converted scope target mandatory explicit e e') (ht : e.type.Native K)
    (htarget : target.Native K) : e'.type.Native K := by
  cases h with
  | same _ => exact ht
  | adopted ha =>
    cases ha with
    | @integer f _ _ hc _ _ _ | @null f _ hc _ _ _ =>
      show (Step.typeAfter target f.chain.steps).Native K
      rw [hc]
      exact htarget
  | @chain c _ hc =>
    rw [Scope.search, hs] at hc
    obtain ⟨-, -, u, hu, hk, -⟩ :=
      CastTable.search_linked (Builtin.casts_closed_native hK scope.structs) ht hc
    rw [type_attach]
    have hk : Step.typeAfter e.type c.steps = u := hk
    rw [hk]
    exact hu
  | kept _ => exact ht

/-- A conversion that has to succeed gives the very type that is asked for. -/
theorem Converted.type_eq (hK : StructRef.Distinct K) (hs : scope.world.casts = Builtin.casts)
    (h : Converted scope target true explicit e e') (ht : e.type.Native K)
    (htarget : target.Native K) : e'.type = target := by
  cases h with
  | same hc => exact Structs.eq_of_compare hK ht htarget hc
  | adopted ha =>
    cases ha with
    | @integer f _ _ hc _ _ _ | @null f _ hc _ _ _ =>
      show Step.typeAfter target f.chain.steps = target
      rw [hc]
      rfl
  | @chain c _ hc =>
    rw [Scope.search, hs] at hc
    obtain ⟨-, -, u, hu, hk, hcmp⟩ :=
      CastTable.search_linked (Builtin.casts_closed_native hK scope.structs) ht hc
    rw [type_attach]
    have hk : Step.typeAfter e.type c.steps = u := hk
    rw [hk]
    exact Structs.eq_of_compare hK hu htarget hcmp
  | kept h => cases h

end Typed

/-! ### Scopes of a program -/

/-- A signature of types of the program; what is given back is a value. -/
structure Signature.Native (K : StructRef → Prop) (g : Signature) : Prop where
  parameters : ∀ t ∈ g.parameters, t.Native K
  result : g.result.Native K
  value : g.result.isFlagged = false

/-- A scope in a function that gives back `result`: it names types of the program only. -/
structure Scope.Native (K : StructRef → Prop) (result : Ty) (s : Scope) : Prop where
  names : s.Over (Ty.Native K) fun v => v.type.Native K
  functions : ∀ e ∈ s.world.functions, ∀ p, e.prototype? = some p → p.signature.Native K
  returns : ∀ t, s.returnType? = some t → t = result ∧ t.Native K ∧ t.isFlagged = false

/-- What is expected is a value of a type of the program. -/
def Expected.Native (K : StructRef → Prop) (x : Expected) : Prop :=
  ∀ t, x.type? = some t → t.Native K ∧ t.isFlagged = false

theorem Expected.native_anything : Expected.anything.Native K :=
  fun t ht => by cases ht

theorem Expected.native_required {t : Ty} (h : t.Native K)
    (hf : t.isFlagged = false) : (Expected.required t).Native K := fun u hu => by
  cases hu
  exact ⟨h, hf⟩

theorem Expected.native_bool : (Expected.required Builtin.bool).Native K :=
  native_required Ty.native_bool rfl

theorem Expected.native_void : (Expected.required Builtin.void).Native K :=
  native_required Ty.native_void rfl

theorem TypedStmt.returnExpected_native {t : Ty} (ht : t.Native K)
    (hf : t.isFlagged = false) : (returnExpected t).Native K := by
  unfold returnExpected
  split
  · exact Expected.native_anything
  · exact Expected.native_required ht hf

namespace Scope.Native

variable {K : StructRef → Prop} {result : Ty} {s s' : Scope}

theorem push (h : s.Native K result) : s.push.Native K result :=
  ⟨h.names.push, h.functions, h.returns⟩

theorem callee (h : s.Native K result) {id : Nat} {c : Callee} (hc : s.callee? id = some c) :
    c.prototype.signature.Native K := by
  unfold Scope.callee? at hc
  split at hc
  · next hp =>
    cases hc
    exact h.functions _ (List.mem_of_getElem? hp) _ rfl
  · cases hc

theorem resolveType (h : s.Native K result) {x : TypeExpr} {t : Ty}
    (ht : s.resolveType x = .ok t) : t.Native K :=
  h.names.resolveType (fun _ => Ty.native_pointerTo.mpr) (fun _ => Ty.native_withFlags.mpr) ht

theorem addVariable (h : s.Native K result) {v : Variable} {position : Position}
    (hv : v.type.Native K)
    (ha : s.addVariable v position = .ok s') : s'.Native K result := by
  obtain ⟨hw, hr⟩ := Scope.addVariable_world ha
  refine ⟨h.names.addVariable hv ha, ?_, ?_⟩
  · rw [hw]
    exact h.functions
  · rw [hr]
    exact h.returns

end Scope.Native

/-! ### One node at a time -/

/-- A well-typed expression of a type of the program. -/
structure Typed.Proper (s : Structs) (K : StructRef → Prop) (result : Ty) (e : Typed) : Prop where
  typed : e.WellTyped s result
  native : e.type.Native K

namespace Typed.Proper

variable {K : StructRef → Prop} {result : Ty} {scope : Scope} {limit : Weight} {e e' : Typed}
  {p q : Progress} {span : Span} {target : Ty} {expected : Expected}

theorem plain {s : Structs} {n : Node} {t : Ty} {r : Range} (h : n.WellTyped s result t)
    (ht : t.Native K) : (Typed.plain n t r span).Proper s K result :=
  ⟨wellTyped_plain h, ht⟩

theorem converted {mandatory explicit : Bool} (hK : StructRef.Distinct K)
    (hs : scope.world.casts = Builtin.casts) (h : e.Proper scope.structs K result)
    (ht : target.Native K) (hc : Converted scope target mandatory explicit e e') :
    e'.Proper scope.structs K result :=
  ⟨hc.wellTyped hK hs h.native h.typed, hc.native hK hs h.native ht⟩

theorem meet (hK : StructRef.Distinct K)
    (hs : scope.world.casts = Builtin.casts) (h : e.Proper scope.structs K result)
    (hx : expected.Native K) (hm : (e.meet scope limit expected).Gives p e' q) :
    e'.Proper scope.structs K result := by
  obtain ⟨-, ⟨rfl, -⟩ | ⟨t, ht, -, hc⟩⟩ := meet_gives hm
  · exact h
  · exact h.converted hK hs (hx t ht).1 hc

/-- An expression that is required to have a type has it. -/
theorem required (hK : StructRef.Distinct K) (hs : scope.world.casts = Builtin.casts)
    (h : e.Proper scope.structs K result) (ht : target.Native K) (hv : target.isVoid = false)
    (hm : (e.meet scope limit (.required target)).Gives p e' q) : e'.type = target := by
  obtain ⟨-, ⟨rfl, hvoid⟩ | ⟨t, hu, -, hc⟩⟩ := meet_gives hm
  · rw [hvoid target rfl] at hv
    cases hv
  · cases hu
    exact hc.type_eq hK hs h.native ht

theorem decay (hK : StructRef.Distinct K) (hs : scope.world.casts = Builtin.casts)
    (h : e.Proper scope.structs K result) (hd : (e.decay scope limit).Gives p e' q) :
    e'.Proper scope.structs K result ∧ e'.type.isFlagged = false := by
  obtain ⟨-, ⟨rfl, hf⟩ | hc⟩ := decay_gives hd
  · exact ⟨h, hf⟩
  · have ht := Ty.native_bare.mpr h.native
    refine ⟨h.converted hK hs ht hc, ?_⟩
    rw [hc.type_eq hK hs h.native ht, Ty.isFlagged_bare]

theorem asValue (hK : StructRef.Distinct K) (hs : scope.world.casts = Builtin.casts)
    (h : e.Proper scope.structs K result) (hm : (e.asValue scope limit).Gives p e' q) :
    e'.Proper scope.structs K result ∧ (e.type.isVoid = false → e'.type = e.type.bare) ∧
      (e.type.isVoid = true → e' = e) := by
  have ht := Ty.native_bare.mpr h.native
  have hx := Expected.native_required ht (Ty.isFlagged_bare _)
  refine ⟨h.meet hK hs hx hm, ?_, ?_⟩
  · intro hv
    exact h.required hK hs ht (by rw [Ty.isVoid_bare, hv]) hm
  · intro hv
    obtain ⟨-, ⟨rfl, -⟩ | ⟨t, hu, hvoid, -⟩⟩ := meet_gives hm
    · rfl
    · cases hu
      rw [Ty.isVoid_bare, hv] at hvoid
      cases hvoid

theorem unary {op : UnaryOp} (hK : StructRef.Distinct K)
    (hs : scope.Native K result) (h : e.Proper scope.structs K result)
    (hu : (Typed.unary scope limit expected span op e).Gives p e' q) :
    e'.Proper scope.structs K result := by
  obtain ⟨-, o, ho, t, operand, range, hop, hp, hc, -, rfl⟩ := unary_gives hu
  rw [hs.names.overloads] at ho
  obtain ⟨u, hu, hps, hres, -⟩ := Builtin.unary_overload ho hop
  have hn : u.Native K := Ty.native_of_mem (Builtin.mem_all_of_values hu)
  have ht : t = u := by
    rw [hps] at hp
    exact (Option.some.inj hp).symm
  subst ht
  refine plain ⟨(h.converted hK hs.names.casts hn hc).typed, o, ho, hop, ?_, rfl⟩ (hres ▸ hn)
  rw [hps, hc.type_eq hK hs.names.casts h.native hn]

/-- Both operands get the types of the parameters. -/
theorem binary {op : BinaryOp} {left right : Typed}
    (hK : StructRef.Distinct K) (hs : scope.Native K result)
    (hl : left.Proper scope.structs K result) (hr : right.Proper scope.structs K result)
    (hb : (Typed.binary scope limit expected span op left right).Gives p e' q) :
    e'.Proper scope.structs K result := by
  obtain ⟨-, o, ho, t, u, left', right', range, hop, hp, hp', hcl, hcr, -, rfl⟩ := binary_gives hb
  rw [hs.names.overloads] at ho
  obtain ⟨w, hw, hps, hres, -⟩ := Builtin.binary_overload ho hop
  have hn : w.Native K := Ty.native_of_mem (Builtin.mem_all_of_values hw)
  obtain ⟨rfl, rfl⟩ : t = w ∧ u = w := by
    rw [hps] at hp hp'
    exact ⟨(Option.some.inj hp).symm, (Option.some.inj hp').symm⟩
  refine plain ⟨(hl.converted hK hs.names.casts hn hcl).typed,
    (hr.converted hK hs.names.casts hn hcr).typed, o, ho, hop, ?_, ?_, rfl⟩ ?_
  · rw [hps, hcl.type_eq hK hs.names.casts hl.native hn, hcr.type_eq hK hs.names.casts hr.native hn]
  · exact List.mem_of_getElem? hp
  · rcases hres with hres | hres
    · rw [hres]
      exact hn
    · rw [hres]
      exact Ty.native_bool

theorem addressOf (h : e.Proper scope.structs K result)
    (ha : (Typed.addressOf span e).Gives p e' q) : e'.Proper scope.structs K result := by
  obtain ⟨-, hr, rfl⟩ := addressOf_gives ha
  exact plain ⟨h.typed, hr, rfl⟩ (Ty.native_pointerTo.mpr (Ty.native_withFlags.mpr h.native))

/-- What a proper pointer points to is proper. -/
theorem dereference (hK : StructRef.Distinct K) (hs : scope.world.casts = Builtin.casts)
    (h : e.Proper scope.structs K result)
    (hd : (Typed.dereference scope limit span e).Gives p e' q) :
    e'.Proper scope.structs K result := by
  obtain ⟨-, pointed, operand, range, hp, hc, rfl, -⟩ := dereference_gives hd
  obtain ⟨hb, hn⟩ := h.native.eq_pointerTo hp
  have ho : operand.Proper scope.structs K result ∧ operand.type = .pointerTo pointed := by
    rcases hc with ⟨rfl, hf⟩ | hc
    · exact ⟨h, by rw [← hb, Ty.bare_eq_self hf]⟩
    · have ht := Ty.native_bare.mpr h.native
      exact ⟨h.converted hK hs ht hc, by rw [← hb, hc.type_eq hK hs h.native ht]⟩
  exact plain ⟨ho.1.typed, pointed, ho.2, rfl⟩ (Ty.native_withFlags.mpr hn)

/-- Arguments that are passed have the types of the parameters. -/
theorem passed {es es' : List Typed} {ts : List Ty} (hK : StructRef.Distinct K)
    (hs : scope.world.casts = Builtin.casts) (hp : Passed scope es ts es')
    (h : ∀ e ∈ es, e.Proper scope.structs K result) (ht : ∀ t ∈ ts, t.Native K) :
    Typed.WellTypedAll scope.structs result es' ∧ es'.map Typed.type = ts.map Ty.bare := by
  induction hp with
  | nil => exact ⟨trivial, rfl⟩
  | cons first rest ih =>
    have he := h _ (.head _)
    have hb := Ty.native_bare.mpr (ht _ (.head _))
    obtain ⟨hrest, hmap⟩ := ih (fun e he => h e (.tail _ he))
      (fun t h => ht t (.tail _ h))
    refine ⟨⟨(he.converted hK hs hb first).typed, hrest⟩, ?_⟩
    rw [List.map_cons, List.map_cons, hmap, first.type_eq hK hs he.native hb]

theorem call {name : String} {ids : List Nat} {es : List Typed}
    (hK : StructRef.Distinct K) (hs : scope.Native K result)
    (h : ∀ e ∈ es, e.Proper scope.structs K result)
    (hc : (Typed.call scope limit expected span name ids es).Gives p e' q) :
    e'.Proper scope.structs K result := by
  obtain ⟨-, id, -, c, es', hcallee, hp, rfl⟩ := call_gives hc
  have hn := hs.callee hcallee
  obtain ⟨hes, hmap⟩ := passed hK hs.names.casts hp h hn.parameters
  exact plain ⟨hes, hmap, rfl⟩ hn.result

theorem block {ts : List TypedStmt} {r : Option Typed}
    (hx : expected.Native K) (hts : TypedStmt.WellTypedAll scope.structs result ts)
    (hr : ∀ e, r = some e → e.Proper scope.structs K result) :
    (Typed.block scope expected span ts r).Proper scope.structs K result := by
  rcases block_cases scope expected span ts r with ⟨e, rfl, he⟩ | ⟨rfl, t, ht, hd, he⟩ |
    ⟨rfl, -, he⟩
  · rw [he]
    exact plain ⟨hts, (hr e rfl).typed, rfl⟩ (hr e rfl).native
  · rw [he]
    exact plain ⟨hts, .inl hd⟩ (hx t ht).1
  · rw [he]
    exact plain ⟨hts, .inr rfl⟩ Ty.native_void

end Typed.Proper

/-! ### Whole trees -/

/-- A block that is run for no value is `Void`. -/
theorem Block.Yields.type_void {s : Scope} {w : Weight} {b : Block} {e : Typed} {p q : Progress}
    (h : Block.Yields s w (.required Builtin.void) b p e q) : e.type = Builtin.void := by
  cases h with
  | @mk _ _ _ span _ _ ts _ _ h =>
    obtain rfl := h.result rfl
    rcases Typed.block_cases s (.required Builtin.void) span ts none with
      ⟨r, hr, -⟩ | ⟨-, t, ht, -, he⟩ | ⟨-, -, he⟩
    · cases hr
    · cases ht
      rw [he, Typed.type_plain]
    · rw [he, Typed.type_plain]

/-- What is proved of a statement that was checked, and of the scope behind it. -/
structure TypedStmt.Proper (K : StructRef → Prop) (result : Ty) (scope scope' : Scope)
    (s : TypedStmt) : Prop where
  typed : s.WellTyped scope.structs result
  behind : scope'.Native K result
  world : scope'.world = scope.world

/-- A variable that is defined by a proper value. -/
theorem TypedStmt.Proper.define {result type : Ty} {scope scope' : Scope}
    {name : String} {init : Option Typed} {range : Range} {slot : Nat} {position : Position}
    (hs : scope.Native K result) (ht : type.Native K) (hv : type.isVoid = false)
    (hi : ∀ e, init = some e → e.WellTyped scope.structs result ∧ e.type = type.bare)
    (ha : scope.addVariable ⟨name, type, range, slot⟩ position = .ok scope') :
    (TypedStmt.define slot name type init).Proper K result scope scope' := by
  refine ⟨?_, hs.addVariable ht ha, (Scope.addVariable_world ha).1⟩
  cases init with
  | none => exact hv
  | some e => exact ⟨(hi e rfl).1, hv, (hi e rfl).2⟩

section Rules

variable {K : StructRef → Prop} {result : Ty}

mutual

/-- By induction on the rules: each node is well typed if its parts are. -/
theorem Expr.Yields.typed {s : Scope} {w : Weight} {x : Expected} {e : Expr} {p q : Progress}
    {b : Typed} (hK : StructRef.Distinct K) (h : Expr.Yields s w x e p b q)
    (hs : s.Native K result) (hx : x.Native K) : b.Proper s.structs K result := by
  match h, hs, hx with
  | .literal h, hs, hx =>
    obtain ⟨-, ⟨n, r, -, rfl⟩ | ⟨b, rfl⟩ | ⟨r, rfl⟩⟩ := Literal.typed_gives h
    · have hi : ∀ t ∈ Builtin.unsigned, t.isInteger = true ∧ t.isFlagged = false := by decide
      exact .plain (hi _ (Builtin.smallestUnsigned_mem n))
        (Ty.native_of_mem (Builtin.smallestUnsigned_mem_all n))
    · exact .plain rfl Ty.native_bool
    · exact .plain ⟨rfl, rfl⟩ (Ty.native_pointerTo.mpr Ty.native_void)
  | .identifier h, hs, hx =>
    obtain ⟨-, v, hv, rfl⟩ := Typed.ofName_gives h
    exact .plain (Ty.isReference_asReference _)
      (Ty.native_withFlags.mpr (hs.names.lookupVariable hv))
  | .unary he h, hs, hx => exact (he.typed hK hs Expected.native_anything).unary hK hs h
  | .addressOf he h, hs, hx => exact (he.typed hK hs Expected.native_anything).addressOf h
  | .dereference he h, hs, hx =>
    exact (he.typed hK hs Expected.native_anything).dereference hK hs.names.casts h
  | .binary hl hr h, hs, hx =>
    have pl := hl.typed hK hs Expected.native_anything
    exact pl.binary hK hs (hr.typed hK hs Expected.native_anything) h
  | .logical hl hl' hr hr', hs, hx =>
    have pl := hl.typed hK hs Expected.native_bool
    have pr := hr.typed hK hs Expected.native_bool
    exact .plain ⟨(pl.meet hK hs.names.casts Expected.native_bool hl').typed,
      (pr.meet hK hs.names.casts Expected.native_bool hr').typed,
      pl.required hK hs.names.casts Ty.native_bool rfl hl',
      pr.required hK hs.names.casts Ty.native_bool rfl hr', rfl⟩ Ty.native_bool
  | .assign hl ha hm hr hr', hs, hx =>
    have pl := hl.typed hK hs Expected.native_anything
    have hb := Ty.native_bare.mpr pl.native
    have hx := Expected.native_required hb (Ty.isFlagged_bare _)
    have pr := hr.typed hK hs hx
    refine .plain ⟨pl.typed, (pr.meet hK hs.names.casts hx hr').typed, ha, hm, ?_, rfl⟩ pl.native
    intro hvoid
    exact pr.required hK hs.names.casts hb (by rw [Ty.isVoid_bare, hvoid]) hr'
  | .call _ hes h, hs, hx => exact Typed.Proper.call hK hs (hes.typed hK hs) h
  | .conditional hc hc' ht, hs, hx =>
    have pc := hc.typed hK hs Expected.native_bool
    exact .plain ⟨(pc.meet hK hs.names.casts Expected.native_bool hc').typed,
      (ht.typed hK hs Expected.native_void).typed,
      pc.required hK hs.names.casts Ty.native_bool rfl hc', rfl⟩ Ty.native_void
  | .choice (u := u) hc hc' ht ht' hd he he' _, hs, hx =>
    have pc := hc.typed hK hs Expected.native_bool
    have pt := (ht.typed hK hs hx).meet hK hs.names.casts hx ht'
    obtain ⟨pt', hf⟩ := pt.decay hK hs.names.casts hd
    have hx' := Expected.native_required pt'.native hf
    have pe := he.typed hK hs hx'
    refine .plain ⟨(pc.meet hK hs.names.casts Expected.native_bool hc').typed, pt'.typed,
      (pe.meet hK hs.names.casts hx' he').typed,
      pc.required hK hs.names.casts Ty.native_bool rfl hc', rfl, ?_, hf⟩ pt'.native
    cases hv : u.type.isVoid with
    | false => exact pe.required hK hs.names.casts pt'.native hv he'
    | true =>
      -- the other arm is run for no value either
      have hvoid := pt'.native.eq_void hv hf
      rw [hvoid] at he he' ⊢
      obtain ⟨-, ⟨rfl, -⟩ | ⟨u, hu, hu', -⟩⟩ := Typed.meet_gives he'
      · exact he.type_void
      · cases hu
        cases hu'
  | .block h, hs, hx => exact h.typed hK hs hx
  | .cast ht he hc _, hs, hx =>
    have po := (he.typed hK hs Expected.native_anything).converted hK hs.names.casts
      (hs.resolveType ht) hc
    exact .plain ⟨po.typed, rfl⟩ po.native

theorem Expr.YieldsAll.typed {s : Scope} {w : Weight} {es : List Expr} {p q : Progress}
    {as : List Typed} (hK : StructRef.Distinct K) (h : Expr.YieldsAll s w es p as q)
    (hs : s.Native K result) : ∀ a ∈ as, a.Proper s.structs K result := by
  match h, hs with
  | .nil, hs => exact nofun
  | .cons h rest, hs =>
    exact List.forall_mem_cons.mpr ⟨h.typed hK hs Expected.native_anything, rest.typed hK hs⟩

theorem Block.Yields.typed {s : Scope} {w : Weight} {x : Expected} {b : Block} {p q : Progress}
    {e : Typed} (hK : StructRef.Distinct K) (h : Block.Yields s w x b p e q)
    (hs : s.Native K result) (hx : x.Native K) : e.Proper s.structs K result := by
  match h, hs, hx with
  | .mk h, hs, hx =>
    obtain ⟨hts, hr⟩ := h.typed hK hs.push hx
    exact .block hx hts hr

/-- The statements of a block are well typed. -/
theorem Stmt.YieldsAll.typed {s : Scope} {w : Weight} {x : Expected} {ss : List Stmt}
    {p q : Progress} {ts : List TypedStmt} {r : Option Typed} (hK : StructRef.Distinct K)
    (h : Stmt.YieldsAll s w x ss p ts r q) (hs : s.Native K result) (hx : x.Native K) :
    TypedStmt.WellTypedAll s.structs result ts ∧ ∀ e, r = some e → e.Proper s.structs K result := by
  match h, hs, hx with
  | .nil, hs, hx => exact ⟨trivial, nofun⟩
  | .last _ he hm, hs, hx =>
    refine ⟨trivial, ?_⟩
    rintro _ ⟨⟩
    exact (he.typed hK hs hx).meet hK hs.names.casts hx hm
  | .cons _ h rest, hs, hx =>
    obtain ⟨first, hs', hw⟩ := h.typed hK hs
    obtain ⟨hts, hr⟩ := rest.typed hK hs' hx
    rw [Scope.structs, hw] at hts hr
    exact ⟨⟨first, hts⟩, hr⟩

/-- A statement is well typed, and leaves a scope of types of the program. -/
theorem Stmt.Yields.typed {s s' : Scope} {st : Stmt} {p q : Progress} {t : TypedStmt}
    (hK : StructRef.Distinct K) (h : Stmt.Yields s st p t s' q) (hs : s.Native K result) :
    t.Proper K result s s' := by
  match h, hs with
  | .expr h, hs => exact ⟨(h.typed hK hs Expected.native_void).typed, hs, rfl⟩
  | .declare ht hv ha, hs => exact .define hs (hs.resolveType ht) hv nofun ha
  | .define (t := t) ht he hm hval hv ha, hs =>
    have hnat := hs.resolveType ht
    have hb := Ty.native_bare.mpr hnat
    have hvb : t.bare.isVoid = false := by rw [Ty.isVoid_bare, hv]
    have hx := Expected.native_required hb (Ty.isFlagged_bare t)
    have pn := he.typed hK hs hx
    have hmt := pn.required hK hs.names.casts hb hvb hm
    obtain ⟨pv, hvt, -⟩ := (pn.meet hK hs.names.casts hx hm).asValue hK hs.names.casts hval
    refine .define hs hnat hv ?_ ha
    rintro _ ⟨⟩
    rw [hmt] at hvt
    exact ⟨pv.typed, (hvt hvb).trans (Ty.bare_bare t)⟩
  | .infer (a := a) he hval hv ha, hs =>
    obtain ⟨pv, hvt, hve⟩ :=
      (he.typed hK hs Expected.native_anything).asValue hK hs.names.casts hval
    refine .define hs pv.native hv ?_ ha
    rintro _ ⟨⟩
    cases hvoid : a.type.isVoid with
    | false =>
      rw [hvt hvoid, Ty.bare_bare]
      exact ⟨pv.typed, rfl⟩
    | true =>
      rw [hve hvoid, hvoid] at hv
      cases hv
  | .leave ht hv, hs =>
    rw [(hs.returns _ ht).1] at hv
    exact ⟨hv, hs, rfl⟩
  | .ret ht he hm hv, hs =>
    obtain ⟨hres, hnat, hf⟩ := hs.returns _ ht
    rw [hres] at he hm hv hnat hf
    have hx := TypedStmt.returnExpected_native hnat hf
    have pn := he.typed hK hs hx
    refine ⟨⟨(pn.meet hK hs.names.casts hx hm).typed, ?_, hv⟩, hs, rfl⟩
    intro hvoid
    rw [TypedStmt.returnExpected, hvoid] at hm
    exact pn.required hK hs.names.casts hnat hvoid hm
  | .loop hc hm hb, hs =>
    have pn := hc.typed hK hs Expected.native_bool
    exact ⟨⟨(pn.meet hK hs.names.casts Expected.native_bool hm).typed,
      (hb.typed hK hs Expected.native_void).typed,
      pn.required hK hs.names.casts Ty.native_bool rfl hm⟩, hs, rfl⟩

end

end Rules

/-! ### Types with values -/

/-- Expressions of the type are worth something: only `Void` itself has no values, and storage of it
still has an address. -/
def Ty.HasValue (t : Ty) : Prop := t.isVoid = true → t.isFlagged = true

namespace Ty

variable {t : Ty}

theorem hasValue_of_not_void (h : t.isVoid = false) : t.HasValue := fun hv => by
  rw [h] at hv
  cases hv

theorem hasValue_of_flagged (h : t.isFlagged = true) : t.HasValue := fun _ => h

theorem hasValue_of_reference (h : t.isReference = true) : t.HasValue :=
  hasValue_of_flagged (by rw [isFlagged, h, Bool.true_or])

theorem hasValue_pointerTo : (pointerTo t).HasValue := hasValue_of_not_void rfl

theorem hasValue_bool : Builtin.bool.HasValue := hasValue_of_not_void rfl

theorem not_void_of_hasValue (h : t.HasValue) (hf : t.isFlagged = false) : t.isVoid = false := by
  cases hv : t.isVoid with
  | true => exact absurd (h hv) (by simp [hf])
  | false => rfl

theorem not_hasValue_void : ¬ Builtin.void.HasValue := fun h => by cases h rfl

end Ty

namespace Builtin

theorem hasValue_of_values {t : Ty} (h : t ∈ values) : t.HasValue :=
  Ty.hasValue_of_not_void (not_void_of_values h)

/-- Conversions start at types with values. -/
theorem hasValue_of_offers {s : Structs} {e : Edge} (h : casts.Offers s e.source e) :
    e.source.HasValue := by
  rcases h with ⟨g, hg, -, he⟩ | ⟨f, -, hf⟩ | ⟨hf, -⟩
  · rw [((mem_castGroups hg).2 e he).2]
    exact hasValue_of_values (mem_castGroups hg).1
  · obtain ⟨stamp, pointed, ha, -⟩ := CastFamily.edge?_cases hf
    rw [ha]
    exact Ty.hasValue_of_not_void rfl
  · exact Ty.hasValue_of_flagged hf

theorem hasValue_unary {o : Overload} {op : UnaryOp} {t : Ty} (h : o ∈ overloads)
    (ho : o.operator = .unary op) (hp : o.parameters = [t]) : t.HasValue := by
  obtain ⟨u, hu, hpu, -⟩ := unary_overload h ho
  cases hp.symm.trans hpu
  exact hasValue_of_values hu

theorem hasValue_binary {o : Overload} {op : BinaryOp} {t u : Ty} (h : o ∈ overloads)
    (ho : o.operator = .binary op) (hp : o.parameters = [t, u]) : t.HasValue ∧ u.HasValue := by
  obtain ⟨v, hv, hpv, -⟩ := binary_overload h ho
  cases hp.symm.trans hpv
  exact ⟨hasValue_of_values hv, hasValue_of_values hv⟩

end Builtin

/-- An expression that is worth nothing is not converted. -/
theorem Facts.WellTyped.hasValue_or {s : Structs} {f : Facts} (h : f.WellTyped s) :
    f.type.HasValue ∨ f.chain.steps = [] := by
  have linked := h.linked
  cases hs : f.chain.steps with
  | nil => exact .inr rfl
  | cons st sts =>
    rw [hs] at linked
    obtain ⟨source, offers, -⟩ := linked
    have source : st.edge.source = f.type := source
    exact .inl (source ▸ Builtin.hasValue_of_offers offers)

/-- An expression that is to have a value and leaves none ends in `return`. -/
theorem Typed.WellTyped.diverges {s : Structs} {result : Ty} {e : Typed}
    (h : e.WellTyped s result) (ht : e.type.isVoid = false) (hp : e.producesValue = false) :
    e.diverges = true := by
  obtain ⟨f, n⟩ := e
  obtain ⟨hf, hn⟩ := h
  have other (hv : (!(Typed.mk f n).type.isVoid) = false) : False := by
    rw [ht] at hv
    cases hv
  cases n with
  | block ss r =>
    cases r with
    | some r => cases hp
    | none =>
      refine hn.2.resolve_right ?_
      intro hvoid
      rcases hf.hasValue_or with hv | hs
      · exact Ty.not_hasValue_void (hvoid ▸ hv)
      · have htype : (Typed.mk f (.block ss none)).type = Builtin.void := by
          rw [Typed.type, Typed.facts, Chain.destination?, hs]
          exact hvoid
        rw [htype] at ht
        cases ht
  | _ => exact (other hp).elim

end Gauge
