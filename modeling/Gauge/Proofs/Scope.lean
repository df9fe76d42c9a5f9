import Gauge.Proofs.Success

/-!
# Proofs — what the names of a scope stand for

`Scope.Over T V` says that a scope has the builtin conversions and operators, that every type it
names is in `T` and every variable in `V`.  The outermost scope has it (`Over.standard`), and each
way to change a scope keeps it; so a name that is looked up stands for a type of `T` or a variable
of `V`, whatever was declared in between.
-/

namespace Gauge

namespace Scope

/-- The scope has the builtin conversions and operators, its types are in `T` and its variables
in `V`. -/
structure Over (T : Ty → Prop) (V : Variable → Prop) (s : Scope) : Prop where
  casts : s.world.casts = Builtin.casts
  overloads : s.world.overloads = Builtin.overloads
  type_mem : ∀ f ∈ s.frames, ∀ b ∈ f.types, T b.2
  variable_mem : ∀ f ∈ s.frames, ∀ b ∈ f.symbols, ∀ v, b.2 = .variable v → V v

section Lookup

variable {name : String} {s : Scope}

theorem mem_of_lookup {α : Type} {a : α} :
    ∀ {l : List (String × α)}, l.lookup name = some a → (name, a) ∈ l
  | [], h => by cases h
  | (n, b) :: l, h => by
    rw [List.lookup_cons] at h
    split at h
    · next hn =>
      cases h
      rw [beq_iff_eq.mp hn]
      exact .head _
    · exact .tail _ (mem_of_lookup h)

theorem mem_of_lookupType {t : Ty} (h : s.lookupType name = some t) :
    ∃ f ∈ s.frames, (name, t) ∈ f.types := by
  obtain ⟨f, hf, h⟩ := List.exists_of_findSome?_eq_some h
  exact ⟨f, hf, mem_of_lookup h⟩

theorem mem_of_lookupSymbol {b : Binding} (h : s.lookupSymbol name = some b) :
    ∃ f ∈ s.frames, (name, b) ∈ f.symbols := by
  obtain ⟨f, hf, h⟩ := List.exists_of_findSome?_eq_some h
  exact ⟨f, hf, mem_of_lookup h⟩

/-- What an annotation means depends on the names of types only. -/
theorem resolveType_congr {s' : Scope} (h : ∀ name, s'.lookupType name = s.lookupType name) :
    ∀ x : TypeExpr, s'.resolveType x = s.resolveType x
  | .named _ name => by rw [resolveType, resolveType, h]
  | .pointer _ x | .mutable _ x => by rw [resolveType, resolveType, resolveType_congr h x]

theorem callee_eq_ok {id : Nat} {c : Callee} (h : s.callee id = .ok c) : s.callee? id = some c := by
  unfold callee at h
  split at h
  · next hc =>
    cases h
    exact hc
  · cases h

/-- Adding a variable changes neither the world nor what the function gives back. -/
theorem addVariable_world {s' : Scope} {v : Variable} {position : Position}
    (ha : s.addVariable v position = .ok s') :
    s'.world = s.world ∧ s'.returnType? = s.returnType? := by
  unfold addVariable at ha
  split at ha
  · cases ha
  · cases ha
    exact ⟨rfl, rfl⟩

end Lookup

namespace Over

variable {T T' : Ty → Prop} {V V' : Variable → Prop} {s s' : Scope} {name : String} {t : Ty}
  {position : Position}

/-! ### Looking names up -/

theorem lookupType (h : s.Over T V) (ht : s.lookupType name = some t) : T t := by
  obtain ⟨f, hf, hb⟩ := mem_of_lookupType ht
  exact h.type_mem f hf _ hb

theorem lookupVariable (h : s.Over T V) {v : Variable}
    (hv : s.lookupSymbol name = some (.variable v)) : V v := by
  obtain ⟨f, hf, hb⟩ := mem_of_lookupSymbol hv
  exact h.variable_mem f hf _ hb v rfl

/-- A type annotation means a type made of the named ones. -/
theorem resolveType (h : s.Over T V) (hp : ∀ t, T t → T (.pointerTo t))
    (hm : ∀ t, T t → T t.asMutable) :
    ∀ {e : TypeExpr} {t : Ty}, s.resolveType e = .ok t → T t
  | .named _ name, t, ht => by
    rw [Scope.resolveType] at ht
    split at ht
    · next hl =>
      cases ht
      exact h.lookupType hl
    · cases ht
  | .pointer _ e, t, ht => by
    obtain ⟨u, hu, rfl⟩ := map_eq_ok.mp ht
    exact hp u (h.resolveType hp hm hu)
  | .mutable _ e, t, ht => by
    obtain ⟨u, hu, rfl⟩ := map_eq_ok.mp ht
    exact hm u (h.resolveType hp hm hu)

/-! ### Changing a scope -/

theorem mono (h : s.Over T V) (hT : ∀ t, T t → T' t) (hV : ∀ v, V v → V' v) : s.Over T' V' where
  casts := h.casts
  overloads := h.overloads
  type_mem := fun f hf b hb => hT _ (h.type_mem f hf b hb)
  variable_mem := fun f hf b hb v hv => hV _ (h.variable_mem f hf b hb v hv)

/-- Only what the frames name, the conversions and the operators matter. -/
theorem of_frames (h : s.Over T V) (hw : s'.world.casts = s.world.casts)
    (ho : s'.world.overloads = s.world.overloads)
    (hf : ∀ f' ∈ s'.frames, ∃ f ∈ s.frames, f'.types = f.types ∧ f'.symbols = f.symbols) :
    s'.Over T V where
  casts := hw.trans h.casts
  overloads := ho.trans h.overloads
  type_mem := by
    intro f' hf' b hb
    obtain ⟨f, hm, ht, -⟩ := hf f' hf'
    exact h.type_mem f hm b (ht ▸ hb)
  variable_mem := by
    intro f' hf' b hb
    obtain ⟨f, hm, -, hs⟩ := hf f' hf'
    exact h.variable_mem f hm b (hs ▸ hb)

theorem push (h : s.Over T V) : s.push.Over T V where
  casts := h.casts
  overloads := h.overloads
  type_mem := by
    intro f hf b hb
    rcases List.mem_cons.mp hf with rfl | hf
    · cases hb
    · exact h.type_mem f hf b hb
  variable_mem := by
    intro f hf b hb
    rcases List.mem_cons.mp hf with rfl | hf
    · cases hb
    · exact h.variable_mem f hf b hb

theorem pop (h : s.Over T V) : s.pop.Over T V := by
  rcases hs : s.outer with _ | ⟨f, fs⟩
  · rw [Scope.pop, hs]
    exact h
  · rw [Scope.pop, hs]
    refine h.of_frames rfl rfl ?_
    intro f' hf'
    refine ⟨f', .tail _ ?_, rfl, rfl⟩
    rw [hs]
    exact hf'

theorem withStructs (h : s.Over T V) (table : Structs) : (s.withStructs table).Over T V :=
  h.of_frames rfl rfl fun f hf => ⟨f, hf, rfl, rfl⟩

theorem keeping (h : s.Over T V) (taken : List StructRef) : (s.keeping taken).Over T V :=
  h.withStructs _

theorem freshStamp (h : s.Over T V) : s.freshStamp.2.Over T V :=
  h.of_frames rfl rfl fun f hf => ⟨f, hf, rfl, rfl⟩

theorem setReturnType (h : s.Over T V) (t : Ty) : (s.setReturnType t).Over T V := by
  refine h.of_frames rfl rfl ?_
  intro f' hf'
  rcases List.mem_cons.mp hf' with rfl | hf'
  · exact ⟨s.frame, .head _, rfl, rfl⟩
  · exact ⟨f', .tail _ hf', rfl, rfl⟩

theorem insertType (h : s.Over T V) (name : String) (ht : T t) :
    (s.insertType name t).Over T V where
  casts := h.casts
  overloads := h.overloads
  type_mem := by
    intro f hf b hb
    rcases List.mem_cons.mp hf with rfl | hf
    · rcases List.mem_cons.mp hb with rfl | hb
      · exact ht
      · exact h.type_mem _ (.head _) b hb
    · exact h.type_mem f (.tail _ hf) b hb
  variable_mem := by
    intro f hf b hb
    rcases List.mem_cons.mp hf with rfl | hf
    · exact h.variable_mem _ (.head _) b hb
    · exact h.variable_mem f (.tail _ hf) b hb

theorem registerType (h : s.Over T V) {id : TypeId}
    (ht : T t) (hr : s.registerType name t position = .ok (id, s')) : s'.Over T V := by
  unfold Scope.registerType at hr
  split at hr
  · cases hr
  · cases hr
    refine (h.insertType name ht).of_frames rfl rfl ?_
    intro f' hf'
    rcases List.mem_cons.mp hf' with rfl | hf'
    · exact ⟨_, .head _, rfl, rfl⟩
    · exact ⟨f', .tail _ hf', rfl, rfl⟩

theorem declareStruct (h : s.Over T V) {r : StructRef}
    (ht : T (.struct .none ⟨s.structs.entries.length, name⟩))
    (hr : s.declareStruct name position = .ok (r, s')) : s'.Over T V := by
  obtain ⟨⟨id, s₁⟩, h₁, hr⟩ := bind_eq_ok.mp hr
  cases hr
  refine ((h.withStructs _).registerType ht h₁).of_frames rfl rfl ?_
  intro f' hf'
  rcases List.mem_cons.mp hf' with rfl | hf'
  · exact ⟨_, .head _, rfl, rfl⟩
  · exact ⟨f', .tail _ hf', rfl, rfl⟩

theorem completeStruct (h : s.Over T V) {members : List (String × Ty)}
    (hc : s.completeStruct t members = .ok s') : s'.Over T V := by
  unfold Scope.completeStruct at hc
  split at hc
  · obtain ⟨table, -, rfl⟩ := map_eq_ok.mp hc
    exact h.withStructs table
  · cases hc

/-- Binding a name to a variable of `V`, or to functions. -/
theorem bind (h : s.Over T V) {b : Binding} (hb : ∀ v, b = .variable v → V v) :
    (s.bind name b).Over T V where
  casts := h.casts
  overloads := h.overloads
  type_mem := by
    intro f hf b hb
    rcases List.mem_cons.mp hf with rfl | hf
    · exact h.type_mem _ (.head _) b hb
    · exact h.type_mem f (.tail _ hf) b hb
  variable_mem := by
    intro f hf c hc
    rcases List.mem_cons.mp hf with rfl | hf
    · rcases List.mem_cons.mp hc with rfl | hc
      · exact hb
      · exact h.variable_mem _ (.head _) c hc
    · exact h.variable_mem f (.tail _ hf) c hc

theorem addVariable (h : s.Over T V) {v : Variable} (hv : V v)
    (ha : s.addVariable v position = .ok s') : s'.Over T V := by
  unfold Scope.addVariable at ha
  split at ha
  · cases ha
  · cases ha
    refine h.bind ?_
    intro w hw
    cases hw
    exact hv

theorem reserveFunction (h : s.Over T V) {position : Position} {id : Nat}
    (hr : s.reserveFunction name position = .ok (id, s')) : s'.Over T V := by
  have added : ∀ functions : List FunctionEntry,
      Over T V { s with world := { s.world with functions := functions } } := fun _ =>
    h.of_frames rfl rfl fun f hf => ⟨f, hf, rfl, rfl⟩
  unfold Scope.reserveFunction at hr
  split at hr
  · cases hr
    exact (added _).bind fun v hv => by cases hv
  · cases hr
    exact (added _).bind fun v hv => by cases hv
  · cases hr

theorem resolveFunction (h : s.Over T V) {id : Nat} {position : Position} {abi : Abi}
    (hr : (s.resolveFunction id t abi position).outcome = .ok s') : s'.Over T V := by
  unfold Scope.resolveFunction at hr
  simp only at hr
  split at hr
  · cases hr
  · split at hr
    · obtain ⟨b, -, hr⟩ := Traced.bind_ok.mp hr
      cases b with
      | true => cases hr
      | false =>
        cases hr
        exact h.of_frames rfl rfl fun f hf => ⟨f, hf, rfl, rfl⟩
    · cases hr

/-- The outermost scope names the builtin types and no variable. -/
theorem standard (limits : Limits) :
    (Scope.standard limits).Over (· ∈ Builtin.all) fun _ => False := by
  have named : ∀ (ts : List Ty) (s : Scope), (∀ t ∈ ts, t ∈ Builtin.all) →
      s.Over (· ∈ Builtin.all) (fun _ => False) →
      (ts.foldl (fun s t => s.insertType t.text t) s).Over (· ∈ Builtin.all) fun _ => False := by
    intro ts
    induction ts with
    | nil => exact fun s _ h => h
    | cons t ts ih =>
      intro s hts h
      exact ih _ (fun u hu => hts u (.tail _ hu))
        (h.insertType _ (hts t (.head _)))
  refine named _ _ (fun _ => id) ⟨rfl, rfl, ?_, ?_⟩
  · intro f hf b hb
    obtain rfl := List.mem_singleton.mp hf
    cases hb
  · intro f hf b hb
    obtain rfl := List.mem_singleton.mp hf
    cases hb

end Over

end Scope

end Gauge
