import Gauge.Proofs.Builtin
import Gauge.Proofs.Typed.Build

/-!
# Proofs — the value of a typed expression

What a typed expression without pointers, calls and writes gives when it runs.  `Typed.value?`
evaluates it in an environment that gives the storage of variables its content; an operation that
fails gives no value.  A variable without a first value holds whatever `fill` says.

`Typed.Each` extends a property to all parts of an expression, each in the environment it is run
in.  `Typed.InRange` is the property that matters here: the value, if there is one, lies in the
range that checking has recorded and is a value of the type.

Main statement: `Converted.inRange` — conversions keep values in their ranges.
-/

namespace Gauge

variable {v : Int}

/-- The content of storage. -/
abbrev Env := Nat → Option Int

def Env.set (env : Env) (slot : Nat) (v : Int) : Env := fun n => if n = slot then some v else env n

/-- The number that a literal denotes. -/
def Constant.value? : Constant → Option Int
  | .integer n => some n
  | .bool b => some (truth b)
  | .null => none

/-- The value after a conversion.  Loading gives the content of the storage, which is what a
reference is evaluated to. -/
def Edge.run? (e : Edge) (v : Int) : Option Int :=
  match e.action with
  | .decay | .reinterpret => some v
  | .expandSigned | .expandUnsigned | .truncate | .changeSign => e.destination.wrap? v
  | .pointerToBool => none

/-- The value after some conversions. -/
def Step.run? : List Step → Int → Option Int
  | [], v => some v
  | st :: sts, v => (st.edge.run? v).bind (run? sts)

mutual

/-- The value of an expression after its conversions. -/
def Typed.value? (fill : Nat → Ty → Option Int) (env : Env) : Typed → Option Int
  | .mk f n => (n.value? fill env f.type).bind (Step.run? f.chain.steps)

/-- The value of an expression of the given type. -/
def Node.value? (fill : Nat → Ty → Option Int) (env : Env) (type : Ty) : Node → Option Int
  | .constant c => c.value?
  | .variable slot _ => env slot
  | .unary op e => (e.value? fill env).bind fun x => op.run? type x
  | .binary op a b _ =>
    (a.value? fill env).bind fun x => (b.value? fill env).bind fun y => op.run? type x y
  | .logical .and a b =>
    (a.value? fill env).bind fun x => if x = 0 then some 0 else b.value? fill env
  | .logical .or a b =>
    (a.value? fill env).bind fun x => if x = 0 then b.value? fill env else some 1
  | .conditional c t (some e) =>
    (c.value? fill env).bind fun x => if x = 0 then e.value? fill env else t.value? fill env
  | .block ss (some r) => (TypedStmt.envAfter? fill env ss).bind fun env => r.value? fill env
  | .cast e => e.value? fill env
  | .conditional _ _ none | .block _ none | .addressOf _ | .dereference _ | .assign _ _
  | .call _ _ => none

/-- The environment after some definitions. -/
def TypedStmt.envAfter? (fill : Nat → Ty → Option Int) (env : Env) : List TypedStmt → Option Env
  | [] => some env
  | .define slot _ type none :: ss =>
    (fill slot type).bind fun v => TypedStmt.envAfter? fill (env.set slot v) ss
  | .define slot _ _ (some init) :: ss =>
    (init.value? fill env).bind fun v => TypedStmt.envAfter? fill (env.set slot v) ss
  | .expr _ :: _ | .ret _ :: _ | .loop _ _ :: _ => none

end

mutual

/-- `P` holds of an expression and of all its parts, in the environments they are run in.
Expressions that have no value here are no parts of it. -/
def Typed.Each (fill : Nat → Ty → Option Int) (P : Env → Typed → Prop) (env : Env) : Typed → Prop
  | .mk f n => P env (.mk f n) ∧ n.Each fill P env

def Node.Each (fill : Nat → Ty → Option Int) (P : Env → Typed → Prop) (env : Env) : Node → Prop
  | .constant _ | .variable _ _ => True
  | .unary _ e | .cast e => e.Each fill P env
  | .binary _ a b _ | .logical _ a b => a.Each fill P env ∧ b.Each fill P env
  | .conditional c t (some e) => c.Each fill P env ∧ t.Each fill P env ∧ e.Each fill P env
  | .block ss none => TypedStmt.EachAll fill P env ss
  | .block ss (some r) =>
    TypedStmt.EachAll fill P env ss ∧
      ∀ env', TypedStmt.envAfter? fill env ss = some env' → r.Each fill P env'
  | .conditional _ _ none | .addressOf _ | .dereference _ | .assign _ _ | .call _ _ => False

def TypedStmt.EachAll (fill : Nat → Ty → Option Int) (P : Env → Typed → Prop) (env : Env) :
    List TypedStmt → Prop
  | [] => True
  | .define slot _ type none :: ss =>
    ∀ v, fill slot type = some v → TypedStmt.EachAll fill P (env.set slot v) ss
  | .define slot _ _ (some init) :: ss =>
    init.Each fill P env ∧
      ∀ v, init.value? fill env = some v → TypedStmt.EachAll fill P (env.set slot v) ss
  | .expr e :: ss => e.Each fill P env ∧ TypedStmt.EachAll fill P env ss
  | .ret _ :: _ | .loop _ _ :: _ => False

end

/-- The value of the expression, if it has one, lies in its range and is a value of its type. -/
def Typed.InRange (fill : Nat → Ty → Option Int) (env : Env) (e : Typed) : Prop :=
  ∀ v, e.value? fill env = some v → e.range.Holds v ∧ e.type.Admits v

/-! ### Conversions keep values in range -/

/-- The conversion takes a value in range to a value in range. -/
def Edge.Sound (e : Edge) : Prop :=
  ∀ {s : Structs} {range r : Range} {v w : Int}, s.rangeAfter e range = .ok r →
    e.source.Admits v → range.Holds v → e.run? v = some w → r.Holds w ∧ e.destination.Admits w

/-- What the values of a scalar type are, apart from its name. -/
def Ty.shape? (t : Ty) : Option (Flags × ScalarKind × UInt32) :=
  t.scalar?.map fun c => (t.flags, c.kind, c.size)

theorem Ty.admits_bare {t : Ty} : t.bare.Admits v ↔ t.Admits v := by
  rw [Admits, Admits, bare, scalar?_withFlags]

theorem Ty.word_withFlags {t : Ty} (f : Flags) : (t.withFlags f).Word ↔ t.Word := by
  rw [Word, Word, scalar?_withFlags]

theorem Ty.Admits.of_shape {a b : Ty} (h : a.shape? = b.shape?) (ha : a.Admits v) : b.Admits v := by
  obtain ⟨c, hc, hv⟩ := ha
  rw [shape?, hc] at h
  obtain ⟨d, hd, hk⟩ := Option.map_eq_some_iff.mp h.symm
  simp only [Prod.mk.injEq] at hk
  refine ⟨d, hd, ?_⟩
  simpa only [Scalar.Admits, Scalar.bounds?, hk.2.1, hk.2.2] using hv

theorem Structs.shape_of_compare {s : Structs} {a b : Ty} (ha : a.scalar?.isSome = true)
    (h : (s.compare a b).outcome = .ok true) : a.shape? = b.shape? := by
  cases a with
  | scalar f c =>
    cases b with
    | scalar g d =>
      have h := Except.ok.inj h
      simp only [Scalar.same, Bool.and_eq_true, beq_iff_eq] at h
      simp only [Ty.shape?, Ty.scalar?, Option.map_some, Ty.flags, h.1, h.2.1.1, h.2.1.2]
    | pointer _ _ _ | function _ _ _ _ _ | struct _ _ => cases h
  | pointer _ _ _ | function _ _ _ _ _ | struct _ _ => cases ha

theorem Edge.sound_decay (t : Ty) : (Edge.decay t).Sound := by
  intro s range r v w hr ha hv hw
  cases hr
  cases hw
  exact ⟨hv, Ty.admits_bare.mpr ha⟩

theorem Builtin.admits_reinterpreted {a b : Ty} (h : (a, b) ∈ reinterpretations)
    (hv : a.Admits v) : b.Admits v := by
  obtain ⟨c, hc, hv⟩ := hv
  simp only [reinterpretations, List.mem_cons, Prod.mk.injEq, List.not_mem_nil, or_false] at h
  rcases h with ⟨rfl, rfl⟩ | ⟨rfl, rfl⟩ | ⟨rfl, rfl⟩ | ⟨rfl, rfl⟩ <;> cases hc
  · rcases hv.2 with rfl | rfl <;> exact ⟨_, rfl, by decide, by decide⟩
  · rcases hv.2 with rfl | rfl <;> exact ⟨_, rfl, by decide, by decide⟩
  · exact ⟨_, rfl, hv⟩
  · exact ⟨_, rfl, hv⟩

theorem Builtin.IsConversion.sound {e : Edge} (h : IsConversion e) : e.Sound := by
  intro s range r v w hr ha hv hw
  have word := word_of_mem (mem_all_of_values h.destination)
  obtain ⟨low, high, hb⟩ := h.bounds
  have wraps : e.destination.wrap? v = some w := by
    unfold Edge.run? at hw
    split at hw
    · next hd => exact absurd hd h.not_decay
    · next hd =>
      cases hw
      exact Ty.wrap_eq_self word hb (admits_reinterpreted (h.reinterpret hd) ha)
    · exact hw
    · exact hw
    · exact hw
    · exact hw
    · cases hw
  simp only [Structs.rangeAfter, h.rule] at hr
  exact ⟨Structs.convertedRange_holds word hr hv wraps, Ty.admits_wrap word wraps⟩

/-- Out of scalar types the builtin conversions lead only to scalar types, and all are sound. -/
theorem Builtin.casts_closed_scalar (s : Structs) :
    Builtin.casts.Closed s (fun t => t.scalar?.isSome = true) Ty.shape? Edge.Sound where
  key_eq := fun ha _ h => Structs.shape_of_compare ha h
  source := by
    rintro a e ha (⟨g, hg, hc, he⟩ | ⟨f, -, hf⟩ | ⟨-, rfl⟩)
    · rw [((mem_castGroups hg).2 e he).2]
      exact (Structs.shape_of_compare ha hc).symm
    · obtain ⟨_, _, rfl, -⟩ := CastFamily.edge?_cases hf
      cases ha
    · rfl
  holds := by
    rintro a e ha (⟨g, hg, -, he⟩ | ⟨f, -, hf⟩ | ⟨-, rfl⟩)
    · exact ((mem_castGroups hg).2 e he).1.sound
    · obtain ⟨_, _, rfl, -⟩ := CastFamily.edge?_cases hf
      cases ha
    · exact Edge.sound_decay a
  destination := by
    rintro a e ha (⟨g, hg, -, he⟩ | ⟨f, -, hf⟩ | ⟨-, rfl⟩)
    · obtain ⟨c, hc, -⟩ :=
        scalar_of_mem (mem_all_of_values ((mem_castGroups hg).2 e he).1.destination)
      rw [hc]
      rfl
    · obtain ⟨_, _, rfl, -⟩ := CastFamily.edge?_cases hf
      cases ha
    · show a.bare.scalar?.isSome = true
      rw [Ty.bare, Ty.scalar?_withFlags]
      exact ha

/-- Conversions of types of at most 64 bits lead to such types. -/
theorem Builtin.casts_closed_word (s : Structs) :
    Builtin.casts.Closed s Ty.Word (fun _ => ()) fun e => e.destination.Word := by
  have destination : ∀ {a : Ty} {e : Edge}, a.Word → Builtin.casts.Offers s a e →
      e.destination.Word := by
    rintro a e ha (⟨g, hg, -, he⟩ | ⟨f, hf, hfe⟩ | ⟨-, rfl⟩)
    · exact word_of_mem (mem_all_of_values ((mem_castGroups hg).2 e he).1.destination)
    · obtain ⟨_, _, -, -, ⟨-, hd⟩ | rfl⟩ := CastFamily.edge?_cases hfe
      · rw [hd]
        exact fun c hc => by cases hc
      · have hd : e.destination = bool := by simpa [casts] using hf
        rw [hd]
        exact word_bool
    · exact (Ty.word_withFlags _).mpr ha
  exact ⟨fun _ _ _ => rfl, fun _ _ => rfl, destination, destination⟩

theorem Step.run?_append (as bs : List Step) (v : Int) :
    run? (as ++ bs) v = (run? as v).bind (run? bs) := by
  induction as generalizing v with
  | nil => rfl
  | cons a as ih =>
    simp only [List.cons_append, run?, Option.bind_assoc]
    exact congrArg _ (funext ih)

/-- **Chains are sound**: they keep values in range. -/
theorem Step.Linked.sound {s : Structs} :
    ∀ {steps : List Step} {source : Ty} {range : Range} {v w : Int},
      Step.Linked Ty.shape? s Edge.Sound source range steps → source.Admits v → range.Holds v →
      Step.run? steps v = some w →
      (Step.rangeAfter range steps).Holds w ∧ (Step.typeAfter source steps).Admits w
  | [], _, _, _, _, _, ha, hv, hw => by
    cases hw
    exact ⟨hv, ha⟩
  | st :: sts, source, range, v, w, ⟨hk, hs, hr, hl⟩, ha, hv, hw => by
    obtain ⟨u, hu, hw⟩ := Option.bind_eq_some_iff.mp hw
    obtain ⟨hv, ha⟩ := hs hr (ha.of_shape hk.symm) hv hu
    rw [Step.rangeAfter_cons, Step.typeAfter_cons]
    exact hl.sound ha hv hw

theorem Range.literal_admits {t : Ty} {r : Range} (hi : t.isBool = false)
    (h : Range.literal t v = .ok r) : t.Admits v := by
  rw [Range.literal, hi, if_neg Bool.false_ne_true, Range.integer] at h
  split at h
  · cases h
  · next low high hb =>
    split at h
    · next hv => exact (Ty.admits_iff hb).mpr ⟨hv.1, hv.2.2⟩
    · cases h

namespace Typed

variable {fill : Nat → Ty → Option Int} {env : Env} {scope : Scope} {target : Ty}
  {mandatory explicit : Bool} {e e' : Typed} {v : Int}

theorem value?_attach (c : Chain) :
    (e.attach c).value? fill env = (e.value? fill env).bind (Step.run? c.steps) := by
  obtain ⟨f, n⟩ := e
  show (n.value? fill env f.type).bind (Step.run? (f.chain.steps ++ c.steps)) = _
  rw [value?, Option.bind_assoc]
  exact congrArg _ (funext (Step.run?_append _ _))

/-- A literal that was adopted still denotes its number. -/
theorem Adopted.inRange (ht : target.Word) (h : Adopted scope target e e') :
    InRange fill env e' := by
  cases h with
  | @integer f n range hc _ hi hr =>
    intro v hv
    have hb : target.isBool = false := by
      unfold Ty.isInteger Ty.hasKind at hi
      unfold Ty.isBool Ty.hasKind
      cases hs : target.scalar? with
      | none => rfl
      | some c => cases hk : c.kind <;> simp_all
    have hv : Step.run? f.chain.steps n = some v := hv
    rw [hc] at hv
    cases hv
    show (Step.rangeAfter range f.chain.steps).Holds n ∧
      (Step.typeAfter target f.chain.steps).Admits n
    rw [hc]
    exact ⟨Range.literal_holds ht hb hr, Range.literal_admits hb hr⟩
  | null hc _ _ _ =>
    intro v hv
    cases hv

theorem InRange.scalar (he : InRange fill env e) (hv : e.value? fill env = some v) :
    e.type.scalar?.isSome = true := by
  obtain ⟨c, hc, -⟩ := (he v hv).2
  rw [hc]
  rfl

/-- **Conversions keep values in range.** -/
theorem Converted.inRange (hs : scope.world.casts = Builtin.casts) (ht : target.Word)
    (h : Converted scope target mandatory explicit e e') (he : InRange fill env e) :
    InRange fill env e' := by
  cases h with
  | same _ => exact he
  | adopted ha => exact ha.inRange ht
  | chain _ hc =>
    intro w hw
    rw [value?_attach] at hw
    obtain ⟨v, hv, hw⟩ := Option.bind_eq_some_iff.mp hw
    obtain ⟨hr, ha⟩ := he v hv
    rw [Scope.search, hs] at hc
    obtain ⟨hl, -, -⟩ :=
      CastTable.search_linked (Builtin.casts_closed_scalar scope.structs) (he.scalar hv) hc
    rw [range_attach, type_attach]
    exact hl.sound ha hr hw
  | kept _ => exact he

/-- Only what has a value has one after a conversion. -/
theorem Converted.value_before (h : Converted scope target mandatory explicit e e')
    (hv : e'.value? fill env = some v) : ∃ u, e.value? fill env = some u := by
  cases h with
  | same _ => exact ⟨v, hv⟩
  | adopted h =>
    cases h with
    | @integer f n _ hc _ _ _ =>
      refine ⟨n, ?_⟩
      show Step.run? f.chain.steps n = some (n : Int)
      rw [hc]
      rfl
    | null _ _ _ _ => cases hv
  | chain _ _ =>
    rw [value?_attach] at hv
    obtain ⟨u, hu, -⟩ := Option.bind_eq_some_iff.mp hv
    exact ⟨u, hu⟩
  | kept _ => exact ⟨v, hv⟩

/-- A conversion that had to succeed leads to the target, up to its name. -/
theorem Converted.shape (hs : scope.world.casts = Builtin.casts)
    (h : Converted scope target true explicit e e') (he : InRange fill env e)
    (hv : e'.value? fill env = some v) : e'.type.shape? = target.shape? := by
  obtain ⟨u, hu⟩ := h.value_before hv
  have scalar := he.scalar hu
  cases h with
  | same hc => exact Structs.shape_of_compare scalar hc
  | adopted h =>
    cases h with
    | @integer f n range hc _ _ _ =>
      show (Step.typeAfter target f.chain.steps).shape? = _
      rw [hc]
      rfl
    | null _ _ _ _ => cases hv
  | chain _ hc =>
    rw [Scope.search, hs] at hc
    obtain ⟨-, -, t, ht, hk, hc⟩ :=
      CastTable.search_linked (Builtin.casts_closed_scalar scope.structs) scalar hc
    rw [type_attach]
    exact hk.trans (Structs.shape_of_compare ht hc)
  | kept h => cases h

theorem Converted.word (hs : scope.world.casts = Builtin.casts) (ht : target.Word)
    (h : Converted scope target mandatory explicit e e') (he : e.type.Word) : e'.type.Word := by
  cases h with
  | same _ => exact he
  | adopted ha =>
    cases ha with
    | @integer f _ _ hc _ _ _ | @null f _ hc _ _ _ =>
      show (Step.typeAfter target f.chain.steps).Word
      rw [hc]
      exact ht
  | chain _ hc =>
    rw [Scope.search, hs] at hc
    obtain ⟨hl, -, -⟩ := CastTable.search_linked (Builtin.casts_closed_word scope.structs) he hc
    rw [type_attach]
    exact hl.typeAfter_of he
  | kept _ => exact he

/-- Converting changes nothing inside an expression. -/
theorem Converted.each (hs : scope.world.casts = Builtin.casts) (ht : target.Word)
    (h : Converted scope target mandatory explicit e e')
    (he : e.Each fill (InRange fill) env) : e'.Each fill (InRange fill) env := by
  obtain ⟨f, n⟩ := e
  have root := h.inRange hs ht he.1
  cases h with
  | same _ => exact he
  | adopted ha =>
    cases ha with
    | integer _ _ _ _ | null _ _ _ _ => exact ⟨root, trivial⟩
  | chain _ _ => exact ⟨root, he.2⟩
  | kept _ => exact he

end Typed

end Gauge
