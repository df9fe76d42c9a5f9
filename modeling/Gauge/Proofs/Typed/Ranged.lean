import Gauge.Proofs.Cast.Reach
import Gauge.Proofs.Safe
import Gauge.Proofs.Typed.WellTyped

/-!
# Proofs — ranges in checked trees

In a tree that checking builds the range of every node suits its type, and so does the range behind
every conversion that is applied to it (`Typed.Ranged`).  This rests on a scope whose names all make
sense (`Scope.Sane`), and conversions keep it up (`Typed.Converted.fit`).
-/

namespace Gauge

variable {K : StructRef → Prop}

/-- An expression of a type of the program, with a range that suits it. -/
structure Typed.Apt (s : Structs) (K : StructRef → Prop) (e : Typed) : Prop where
  native : e.type.Native K
  suits : e.range.Suits s e.type

/-- A scope whose names make sense: its types and the members of its structs are types of the
program, its variables have ranges that suit them, and its functions are resolved. -/
structure Scope.Sane (K : StructRef → Prop) (result : Ty) (s : Scope) : Prop
    extends s.Native K result where
  structs : s.structs.Native K
  ranges : s.Over (fun _ => True) fun v => v.range.Suits s.structs v.type
  resolved : ∀ f ∈ s.frames, ∀ b ∈ f.symbols, ∀ ids, b.2 = .functions ids →
    ∀ id ∈ ids, (s.callee? id).isSome = true

theorem Scope.callee_of_some {s : Scope} {id : Nat} {c : Callee} (h : s.callee? id = some c) :
    s.callee id = .ok c := by
  rw [callee, h]

namespace Scope.Sane

variable {K : StructRef → Prop} {result : Ty} {s s' : Scope}

theorem push (h : s.Sane K result) : s.push.Sane K result where
  toNative := h.toNative.push
  structs := h.structs
  ranges := h.ranges.push
  resolved := by
    intro f hf b hb
    rcases List.mem_cons.mp hf with rfl | hf
    · cases hb
    · exact h.resolved f hf b hb

/-- A variable may be added if its range suits its type. -/
theorem addVariable (h : s.Sane K result) {v : Variable} {position : Position}
    (hv : v.type.Native K)
    (hr : v.range.Suits s.structs v.type) (ha : s.addVariable v position = .ok s') :
    s'.Sane K result := by
  have hw := (Scope.addVariable_world ha).1
  have hstructs : s'.structs = s.structs := congrArg World.structs hw
  have hcallee : ∀ id, s'.callee? id = s.callee? id := by
    intro id
    rw [Scope.callee?, Scope.callee?, hw]
  refine ⟨h.toNative.addVariable hv ha, ?_, ?_, ?_⟩
  · rw [hstructs]
    exact h.structs
  · rw [hstructs]
    exact h.ranges.addVariable hr ha
  · unfold Scope.addVariable at ha
    split at ha
    · cases ha
    · cases ha
      intro f hf b hb ids hids id hid
      rw [hcallee]
      rcases List.mem_cons.mp hf with rfl | hf
      · rcases List.mem_cons.mp hb with rfl | hb
        · cases hids
        · exact h.resolved _ (.head _) b hb ids hids id hid
      · exact h.resolved f (.tail _ hf) b hb ids hids id hid

theorem rangeOf (h : s.Sane K result) {t : Ty} (ht : t.Native K) :
    (s.rangeOf t).Suits s.structs t :=
  Structs.rangeOf_suits h.structs ht

/-- Every function that a name may mean can be called. -/
theorem callees (h : s.Sane K result) {name : String} {ids : List Nat}
    (hn : s.lookupSymbol name = some (.functions ids)) :
    ∃ callees, ids.mapM s.callee = .ok callees := by
  obtain ⟨f, hf, hb⟩ := Scope.mem_of_lookupSymbol hn
  refine mapM_defined fun id hid => ?_
  obtain ⟨c, hc⟩ := Option.isSome_iff_exists.mp (h.resolved f hf _ hb ids rfl id hid)
  exact ⟨c, Scope.callee_of_some hc⟩

end Scope.Sane

/-! ### Trees -/

/-- The range of a node suits its type, and the range behind each of its conversions the type that
the conversion leads to. -/
structure Facts.Ranged (s : Structs) (f : Facts) : Prop where
  own : f.range.Suits s f.type
  steps : ∀ st ∈ f.chain.steps, st.range.Suits s st.edge.destination

mutual

/-- All ranges in an expression suit their types. -/
def Typed.Ranged (s : Structs) : Typed → Prop
  | .mk f n => f.Ranged s ∧ n.Ranged s

def Node.Ranged (s : Structs) : Node → Prop
  | .constant _ | .variable _ _ => True
  | .unary _ e | .addressOf e | .dereference e | .cast e => e.Ranged s
  | .binary _ a b _ | .logical _ a b | .assign a b => a.Ranged s ∧ b.Ranged s
  | .call _ es => Typed.RangedAll s es
  | .conditional c t none => c.Ranged s ∧ t.Ranged s
  | .conditional c t (some e) => c.Ranged s ∧ t.Ranged s ∧ e.Ranged s
  | .block ss none => TypedStmt.RangedAll s ss
  | .block ss (some r) => TypedStmt.RangedAll s ss ∧ r.Ranged s

def Typed.RangedAll (s : Structs) : List Typed → Prop
  | [] => True
  | e :: es => e.Ranged s ∧ Typed.RangedAll s es

/-- All ranges in a statement suit their types. -/
def TypedStmt.Ranged (s : Structs) : TypedStmt → Prop
  | .expr e => e.Ranged s
  | .define _ _ _ none | .ret none => True
  | .define _ _ _ (some e) | .ret (some e) => e.Ranged s
  | .loop c b => c.Ranged s ∧ b.Ranged s

def TypedStmt.RangedAll (s : Structs) : List TypedStmt → Prop
  | [] => True
  | st :: sts => st.Ranged s ∧ TypedStmt.RangedAll s sts

end

variable {s : Structs}

/-- What is proved of an expression that was checked: it is of a type of the program, and all ranges
suit. -/
structure Typed.Fit (s : Structs) (K : StructRef → Prop) (e : Typed) : Prop extends e.Apt s K where
  ranged : e.Ranged s

/-- A node without conversions. -/
theorem Typed.Fit.plain {n : Node} {t : Ty} {r : Range} {span : Span} (ht : t.Native K)
    (hr : r.Suits s t) (hn : n.Ranged s) : (Typed.plain n t r span).Fit s K :=
  ⟨⟨ht, hr⟩, ⟨hr, nofun⟩, hn⟩

/-! ### Conversions -/

theorem Ty.Native.word {t : Ty} (h : t.Native K) : t.Word := by
  cases t with
  | scalar f c =>
    intro c' hc
    exact Builtin.word_of_mem h c' hc
  | pointer _ _ _ | struct _ _ => exact fun c hc => by cases hc
  | function _ _ _ _ _ => exact h.elim

/-- The range of a literal that the type can hold. -/
theorem Range.literal_eq_ok {t : Ty} {v : Int} {r : Range} (hw : t.Word) (h : literal t v = .ok r) :
    r.Suits s t := by
  unfold literal at h
  split at h
  · next hb =>
    cases h
    cases t with
    | scalar f c =>
      have hk : c.kind = .bool := beq_iff_eq.mp hb
      rw [suits_scalar, SuitsScalar, hk]
      exact ⟨_, rfl, Bools.nonempty_exactly _⟩
    | _ => cases hb
  · unfold integer at h
    split at h
    · cases h
    · next low high hbt =>
      split at h
      · next hv =>
        cases h
        exact suits_ofBounds hw hbt hv.1 hv.2.1 hv.2.2
      · cases h

/-- Conversions that fit together turn a range that suits into ranges that suit. -/
theorem Step.Linked.suits (hK : StructRef.Distinct K) (hs : s.Native K) :
    ∀ {steps : List Step} {t : Ty} {r : Range}, t.Native K → r.Suits s t →
      Step.Linked id s (fun e => Builtin.casts.Offers s e.source e) t r steps →
      ∀ st ∈ steps, st.range.Suits s st.edge.destination
  | [], _, _, _, _, _ => nofun
  | st :: steps, t, r, ht, hr, ⟨hsource, ho, hrange, rest⟩ => by
    obtain rfl : st.edge.source = t := hsource
    obtain ⟨r', hr', suits⟩ := Builtin.rangeAfter_suits hK hs ht hr ho
    cases hr'.symm.trans hrange
    have hd : st.edge.destination.Native K :=
      (Builtin.casts_closed_native hK s).destination ht ho
    exact List.forall_mem_cons.mpr ⟨suits, Step.Linked.suits hK hs hd suits rest⟩

namespace Typed

variable {K : StructRef → Prop} {result target : Ty} {scope : Scope} {mandatory explicit : Bool}
  {e e' : Typed}

/-- A conversion gives a range that suits the new type. -/
theorem Converted.apt (hK : StructRef.Distinct K) (hs : scope.Sane K result)
    (h : e.Apt scope.structs K)
    (ht : target.Native K) (hc : Converted scope target mandatory explicit e e') :
    e'.Apt scope.structs K := by
  refine ⟨hc.native hK hs.names.casts h.native ht, ?_⟩
  cases hc with
  | same _ | kept _ => exact h.suits
  | adopted ha =>
    cases ha with
    | @integer f n range hc _ _ hr =>
      have suits : range.Suits scope.structs target :=
        Range.literal_eq_ok ht.word hr
      show (Step.rangeAfter range f.chain.steps).Suits _ (Step.typeAfter target f.chain.steps)
      rw [hc]
      exact suits
    | @null f range hc _ hp hr =>
      obtain ⟨r, hr', suits⟩ := Structs.nullRange_suits hs.structs ht hp
      cases hr.symm.trans hr'
      show (Step.rangeAfter range f.chain.steps).Suits _ (Step.typeAfter target f.chain.steps)
      rw [hc]
      exact suits
  | @chain c hne hfound =>
    have hc : Converted scope target true explicit e (e.attach c) := .chain hne hfound
    have htype := hc.type_eq hK hs.names.casts h.native ht
    rw [Scope.search, hs.names.casts] at hfound
    obtain ⟨found, hf, suits⟩ :=
      Builtin.search_native hK hs.structs h.native h.suits (q := ⟨target, explicit, _⟩) ht
    cases hfound.symm.trans hf
    rw [htype, range_attach]
    exact suits c false rfl

/-- A conversion keeps the ranges of all parts. -/
theorem Converted.ranged (hK : StructRef.Distinct K) (hs : scope.Sane K result)
    (h : e.Fit scope.structs K) (ht : target.Native K)
    (hc : Converted scope target mandatory explicit e e') : e'.Ranged scope.structs := by
  have steps : ∀ {f : Facts}, f.chain.steps = [] →
      ∀ st ∈ f.chain.steps, st.range.Suits scope.structs st.edge.destination := by
    intro f hf st hst
    rw [hf] at hst
    cases hst
  cases hc with
  | same _ | kept _ => exact h.ranged
  | adopted ha =>
    cases ha with
    | integer hc _ _ hr => exact ⟨⟨Range.literal_eq_ok ht.word hr, steps hc⟩, trivial⟩
    | null hc _ hp hr =>
      obtain ⟨r, hr', suits⟩ := Structs.nullRange_suits hs.structs ht hp
      cases hr.symm.trans hr'
      exact ⟨⟨suits, steps hc⟩, trivial⟩
  | @chain c _ hfound =>
    obtain ⟨f, n⟩ := e
    obtain ⟨facts, node⟩ := h.ranged
    rw [Scope.search, hs.names.casts] at hfound
    obtain ⟨linked, -⟩ := CastTable.search_linked (Builtin.casts_closed_native hK scope.structs)
      h.native hfound
    refine ⟨⟨facts.own, fun st hst => ?_⟩, node⟩
    rcases List.mem_append.mp hst with hst | hst
    · exact facts.steps st hst
    · exact linked.suits hK hs.structs h.native h.suits st hst

theorem Converted.fit (hK : StructRef.Distinct K) (hs : scope.Sane K result)
    (h : e.Fit scope.structs K) (ht : target.Native K)
    (hc : Converted scope target mandatory explicit e e') : e'.Fit scope.structs K :=
  ⟨hc.apt hK hs h.toApt ht, hc.ranged hK hs h ht⟩

end Typed

end Gauge
