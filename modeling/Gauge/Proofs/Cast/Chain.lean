import Gauge.Proofs.Success

/-!
# Proofs — chains of conversions

What a chain of conversions does to the type and the range of a value, and that the search for the
cheapest chain finds only chains whose steps fit together.

Types are compared by their structs, so a chain need not meet at the very same type.  The statements
are about a `key` of types instead: equal types of a set `T` have equal keys (`CastTable.Closed`).
With the identity as the key the steps of a chain meet exactly.

Main statement: `CastTable.search_linked`.
-/

namespace Gauge

/-! ### Chains -/

namespace Step

/-- The type after some conversions. -/
def typeAfter (source : Ty) (steps : List Step) : Ty :=
  (steps.getLast?.map (·.edge.destination)).getD source

/-- The range after some conversions. -/
def rangeAfter (range : Range) (steps : List Step) : Range :=
  (steps.getLast?.map (·.range)).getD range

/-- What some conversions weigh together. -/
def totalWeight (steps : List Step) : Weight :=
  steps.foldl (fun w s => w + s.edge.weight) .zero

/-- Conversions that fit together: the first starts at `source`, each later one where the one before
it ends, up to `key`; and every one takes the range before it to the range it records.  All of them
are conversions of which `P` holds. -/
def Linked {K : Type} (key : Ty → K) (s : Structs) (P : Edge → Prop) (source : Ty) (range : Range) :
    List Step → Prop
  | [] => True
  | st :: sts =>
    key st.edge.source = key source ∧ P st.edge ∧ s.rangeAfter st.edge range = .ok st.range ∧
      Linked key s P st.edge.destination st.range sts

@[simp] theorem typeAfter_nil (source : Ty) : typeAfter source [] = source := rfl

@[simp] theorem rangeAfter_nil (range : Range) : rangeAfter range [] = range := rfl

theorem typeAfter_cons (source : Ty) (st : Step) (sts : List Step) :
    typeAfter source (st :: sts) = typeAfter st.edge.destination sts := by
  simp only [typeAfter, List.getLast?_cons]
  cases sts.getLast? <;> rfl

theorem rangeAfter_cons (range : Range) (st : Step) (sts : List Step) :
    rangeAfter range (st :: sts) = rangeAfter st.range sts := by
  simp only [rangeAfter, List.getLast?_cons]
  cases sts.getLast? <;> rfl

theorem typeAfter_append (source : Ty) (as bs : List Step) :
    typeAfter source (as ++ bs) = typeAfter (typeAfter source as) bs := by
  simp only [typeAfter, List.getLast?_append]
  cases bs.getLast? <;> rfl

theorem rangeAfter_append (range : Range) (as bs : List Step) :
    rangeAfter range (as ++ bs) = rangeAfter (rangeAfter range as) bs := by
  simp only [rangeAfter, List.getLast?_append]
  cases bs.getLast? <;> rfl

theorem foldl_weight (w : Weight) (steps : List Step) :
    steps.foldl (fun w s => w + s.edge.weight) w = w + totalWeight steps := by
  induction steps generalizing w with
  | nil => simp [totalWeight]
  | cons s ss ih =>
    rw [totalWeight, List.foldl_cons, List.foldl_cons, ih, ih (_ + _), Weight.zero_add,
      Weight.add_assoc]

theorem totalWeight_append (as bs : List Step) :
    totalWeight (as ++ bs) = totalWeight as + totalWeight bs := by
  rw [totalWeight, List.foldl_append, foldl_weight]
  rfl

section Linked

variable {K : Type} {key : Ty → K} {s : Structs} {P : Edge → Prop} {source : Ty} {range : Range}

/-- Linked conversions go on at the type and the range that the ones before them leave. -/
theorem linked_append {as bs : List Step} :
    Linked key s P source range (as ++ bs) ↔
      Linked key s P source range as ∧
        Linked key s P (typeAfter source as) (rangeAfter range as) bs := by
  induction as generalizing source range with
  | nil => simp [Linked]
  | cons a as ih =>
    simp only [List.cons_append, Linked, ih, typeAfter_cons, rangeAfter_cons, and_assoc]

/-- What holds of the source and of every type that a conversion of the chain leads to holds of the
type after the chain. -/
theorem Linked.typeAfter_of {T : Ty → Prop} :
    ∀ {source : Ty} {range : Range} {steps : List Step},
      Linked key s (fun e => T e.destination) source range steps → T source →
      T (typeAfter source steps)
  | _, _, [], _, ht => ht
  | _, _, st :: sts, ⟨_, hd, _, hl⟩, _ => by
    rw [typeAfter_cons]
    exact hl.typeAfter_of hd

end Linked

end Step

/-! ### The search -/

namespace CastTable

/-- The conversion `e` starts at the type `a`: one of the registered ones, one of a family, or that
of loading a value. -/
def Offers (t : CastTable) (s : Structs) (a : Ty) (e : Edge) : Prop :=
  (∃ g ∈ t.groups, (s.compare a g.source).outcome = .ok true ∧ e ∈ g.edges) ∨
    (∃ f ∈ t.families, f.edge? a = some e) ∨ (a.isFlagged = true ∧ e = .decay a)

/-- The set `T` is closed under the conversions of the table, and the key of its types is kept by
comparisons; every conversion out of it satisfies `P`. -/
structure Closed {K : Type} (t : CastTable) (s : Structs) (T : Ty → Prop) (key : Ty → K)
    (P : Edge → Prop) : Prop where
  key_eq : ∀ {a b : Ty}, T a → T b → (s.compare a b).outcome = .ok true → key a = key b
  source : ∀ {a : Ty} {e : Edge}, T a → t.Offers s a e → key e.source = key a
  holds : ∀ {a : Ty} {e : Edge}, T a → t.Offers s a e → P e
  destination : ∀ {a : Ty} {e : Edge}, T a → t.Offers s a e → T e.destination

end CastTable

/-- The families are about values that are pointers. -/
theorem CastFamily.edge?_cases {f : CastFamily} {a : Ty} {e : Edge} (h : f.edge? a = some e) :
    ∃ stamp pointed, a = .pointer .none stamp pointed ∧ e.source = a ∧
      ((pointed.isMutable = true ∧ e.destination = .pointerTo pointed.notMutable) ∨
        f = .pointerToBool e.destination) := by
  unfold edge? at h
  split at h
  · split at h
    · next stamp pointed =>
      split at h
      · next hm =>
        cases h
        exact ⟨stamp, pointed, rfl, rfl, .inl ⟨hm, rfl⟩⟩
      · cases h
    · cases h
  · split at h
    · next stamp pointed =>
      cases h
      exact ⟨stamp, pointed, rfl, rfl, .inr rfl⟩
    · cases h

theorem Structs.compare_of_compareAlike {s : Structs} {a b : Ty}
    (h : (s.compareAlike a b).outcome = .ok true) : (s.compare a b).outcome = .ok true := by
  unfold compareAlike at h
  split at h
  · exact h
  · cases h

/-- What is found is nothing, or a group whose source is equal. -/
theorem CastGroup.edgesFrom_outcome {s : Structs} {a : Ty} :
    ∀ {gs : List CastGroup} {es : List Edge}, (edgesFrom s a gs).outcome = .ok es →
      es = [] ∨ ∃ g ∈ gs, (s.compare a g.source).outcome = .ok true ∧ es = g.edges
  | [], es, h => .inl (Traced.pure_ok.mp h).symm
  | g :: gs, es, h => by
    obtain ⟨b, hb, h⟩ := Traced.bind_ok.mp h
    cases b with
    | true =>
      exact .inr ⟨g, .head _, Structs.compare_of_compareAlike hb,
        (Traced.pure_ok.mp h).symm⟩
    | false =>
      rcases edgesFrom_outcome h with rfl | ⟨g', hg, hc, rfl⟩
      · exact .inl rfl
      · exact .inr ⟨g', .tail _ hg, hc, rfl⟩

namespace CastTable

variable {t : CastTable} {s : Structs}

/-- Only conversions that are offered are given. -/
theorem offers_of_outgoing {a : Ty} {es : List Edge} (h : (t.outgoing s a).outcome = .ok es) :
    ∀ e ∈ es, t.Offers s a e := by
  intro e he
  obtain ⟨from', hf, h⟩ := Traced.bind_ok.mp h
  obtain ⟨registered, hr, hf⟩ := Traced.bind_ok.mp hf
  obtain rfl := Traced.pure_ok.mp hf
  obtain rfl := Traced.pure_ok.mp h
  rw [List.mem_append, List.mem_append, List.mem_filterMap] at he
  rcases he with (he | ⟨f, hf, he⟩) | he
  · rcases CastGroup.edgesFrom_outcome hr with rfl | ⟨g, hg, hc, rfl⟩
    · cases he
    · exact .inl ⟨g, hg, hc, he⟩
  · exact .inr (.inl ⟨f, hf, he⟩)
  · split at he
    · next hd => exact .inr (.inr ⟨hd, List.mem_singleton.mp he⟩)
    · cases he

end CastTable

/-- What the search knows of a type it has reached: its chain leads from the source to a type of the
same key, and to the recorded range and weight. -/
structure Reached.Sound {K : Type} (s : Structs) (T : Ty → Prop) (key : Ty → K) (P : Edge → Prop)
    (source : Ty) (range : Range) (r : Reached) : Prop where
  mem : T r.type
  linked : Step.Linked key s P source range r.chain.steps
  key_eq : key (Step.typeAfter source r.chain.steps) = key r.type
  range_eq : Step.rangeAfter range r.chain.steps = r.range
  weight_eq : Step.totalWeight r.chain.steps = r.chain.weight

section Search

variable {K : Type} {t : CastTable} {s : Structs} {T : Ty → Prop} {key : Ty → K} {P : Edge → Prop}
  {source : Ty} {range : Range} {range' : Range} {q : CastQuery} {r : Reached} {place : Nat}

/-- A place that is found is that of an equal type. -/
theorem Reached.placeFrom_outcome {a : Ty} {i : Nat} :
    ∀ {rs : List Reached} {place : Nat}, (placeFrom s a place rs).outcome = .ok (some i) →
      ∃ j r, i = place + j ∧ rs[j]? = some r ∧ (s.compare a r.type).outcome = .ok true
  | [], _, h => by cases Traced.pure_ok.mp h
  | r :: rs, place, h => by
    obtain ⟨b, hb, h⟩ := Traced.bind_ok.mp h
    cases b with
    | true =>
      cases Traced.pure_ok.mp h
      exact ⟨0, r, rfl, rfl, Structs.compare_of_compareAlike hb⟩
    | false =>
      obtain ⟨j, r', rfl, hr, hc⟩ := placeFrom_outcome h
      exact ⟨j + 1, r', by omega, hr, hc⟩

theorem Reached.nearestFrom_mem :
    ∀ {rs : List Reached} {place i : Nat} {r : Reached}, nearestFrom place rs = some (i, r) → r ∈ rs
  | [], _, _, _, h => by cases h
  | q :: rs, place, i, r, h => by
    simp only [nearestFrom] at h
    split at h
    · exact .tail _ (nearestFrom_mem h)
    · split at h
      · cases h
        exact .head _
      · next p best hb =>
        split at h
        · cases h
          exact .tail _ (nearestFrom_mem hb)
        · cases h
          exact .head _

/-- A conversion taken from a type that is known well leads to a type that is known well. -/
theorem Reached.Sound.extend {e : Edge} (hr : r.Sound s T key P source range)
    (hk : key e.source = key r.type) (hP : P e) (hd : T e.destination)
    (h : s.rangeAfter e r.range = .ok range') (parent : Option Nat) (tied settled : Bool) :
    Reached.Sound s T key P source range
      ⟨e.destination, ⟨r.chain.steps ++ [⟨e, range'⟩], r.chain.weight + e.weight⟩, range', parent,
        tied, settled⟩ where
  mem := hd
  linked := by
    refine Step.linked_append.mpr ⟨hr.linked, hk.trans hr.key_eq.symm, hP, ?_, trivial⟩
    rw [hr.range_eq]
    exact h
  key_eq := by rw [Step.typeAfter_append]; rfl
  range_eq := by rw [Step.rangeAfter_append]; rfl
  weight_eq := by
    rw [Step.totalWeight_append, hr.weight_eq]
    simp [Step.totalWeight]

/-- A sound chain may take the place of another. -/
theorem Reached.Sound.revisit {q : Reached} {chain : Chain} (hq : q.Sound s T key P source range)
    (hn : Reached.Sound s T key P source range ⟨q.type, chain, range', some place, r.tied, false⟩) :
    (Reached.revisit place r chain range' q).Sound s T key P source range := by
  unfold Reached.revisit
  split
  · exact hq
  · split
    · exact ⟨hq.mem, hn.linked, hn.key_eq, hn.range_eq, hn.weight_eq⟩
    · split
      · exact ⟨hq.mem, hq.linked, hq.key_eq, hq.range_eq, hq.weight_eq⟩
      · exact hq

theorem forall_mem_modify {α : Type} {p : α → Prop} {f : α → α} {l : List α} {i : Nat}
    (h : ∀ a ∈ l, p a) (hf : ∀ a, l[i]? = some a → p (f a)) : ∀ a ∈ l.modify i f, p a := by
  intro a ha
  obtain ⟨j, hj⟩ := List.mem_iff_getElem?.mp ha
  rw [List.getElem?_modify] at hj
  obtain ⟨b, hb, rfl⟩ := Option.map_eq_some_iff.mp hj
  split
  · next hij => exact hf b (hij ▸ hb)
  · exact h b (List.mem_of_getElem? hb)

/-- Taking a conversion keeps all chains sound. -/
theorem Reached.relax_sound (hc : t.Closed s T key P) {rs rs' : List Reached} {e : Edge}
    (hrs : ∀ q ∈ rs, q.Sound s T key P source range) (hr : r.Sound s T key P source range)
    (he : t.Offers s r.type e) (hrange : s.rangeAfter e r.range = .ok range')
    (h : (relax s rs place r e (r.chain.weight + e.weight) range').outcome = .ok rs') :
    ∀ q ∈ rs', q.Sound s T key P source range := by
  have hn := hr.extend (hc.source hr.mem he) (hc.holds hr.mem he) (hc.destination hr.mem he) hrange
    (some place) r.tied false
  obtain ⟨i, hi, h⟩ := Traced.bind_ok.mp h
  cases i with
  | none =>
    obtain rfl := Traced.pure_ok.mp h
    intro q hq
    rcases List.mem_append.mp hq with hq | hq
    · exact hrs q hq
    · obtain rfl := List.mem_singleton.mp hq
      exact hn
  | some i =>
    obtain rfl := Traced.pure_ok.mp h
    obtain ⟨j, q', hj, hq', hcmp⟩ := placeFrom_outcome hi
    obtain rfl : i = j := by omega
    refine forall_mem_modify hrs ?_
    intro q hq
    obtain rfl : q' = q := Option.some.inj (hq'.symm.trans hq)
    have hs := hrs q' (List.mem_of_getElem? hq)
    refine hs.revisit ⟨hs.mem, hn.linked, ?_, hn.range_eq, hn.weight_eq⟩
    exact hn.key_eq.trans (hc.key_eq hn.mem hs.mem hcmp)

/-- So does taking all of them. -/
theorem CastTable.expand_sound (hc : t.Closed s T key P) (hr : r.Sound s T key P source range) :
    ∀ {es : List Edge} {rs rs' : List Reached}, (∀ e ∈ es, t.Offers s r.type e) →
      (∀ x ∈ rs, x.Sound s T key P source range) → (expand s q place r es rs).outcome = .ok rs' →
      ∀ x ∈ rs', x.Sound s T key P source range
  | [], rs, rs', _, hrs, h => by
    obtain rfl := Traced.pure_ok.mp h
    exact hrs
  | e :: es, rs, rs', hes, hrs, h => by
    have hrest : ∀ e ∈ es, t.Offers s r.type e := fun e he => hes e (.tail _ he)
    rw [expand] at h
    split at h
    · obtain ⟨range', hrange, h⟩ := Traced.bind_ok.mp h
      obtain ⟨rs₁, h₁, h⟩ := Traced.bind_ok.mp h
      refine expand_sound hc hr hrest ?_ h
      exact Reached.relax_sound hc hrs hr (hes e (.head _)) hrange h₁
    · exact expand_sound hc hr hrest hrs h

/-- So does every round, and the chain that is found is one of them. -/
theorem CastTable.searchFrom_sound (hc : t.Closed s T key P) {c : Chain} {tied : Bool} :
    ∀ {n : Nat} {rs : List Reached}, (∀ x ∈ rs, x.Sound s T key P source range) →
      (t.searchFrom s q n rs).outcome = .ok (.chain c tied) →
      ∃ r : Reached, r.Sound s T key P source range ∧ r.chain = c ∧
        (s.compare r.type q.destination).outcome = .ok true
  | 0, _, _, h => by cases Traced.pure_ok.mp h
  | n + 1, rs, hrs, h => by
    rw [searchFrom] at h
    split at h
    · cases Traced.pure_ok.mp h
    · next place r hn =>
      have hr := hrs r (Reached.nearestFrom_mem hn)
      obtain ⟨b, hb, h⟩ := Traced.bind_ok.mp h
      cases b with
      | true =>
        cases Traced.pure_ok.mp h
        exact ⟨r, hr, rfl, hb⟩
      | false =>
        obtain ⟨es, hes, h⟩ := Traced.bind_ok.mp h
        obtain ⟨rs', hrs', h⟩ := Traced.bind_ok.mp h
        refine searchFrom_sound hc ?_ h
        refine expand_sound hc hr (CastTable.offers_of_outgoing hes) ?_ hrs'
        refine forall_mem_modify hrs ?_
        intro x hx
        have hs := hrs x (List.mem_of_getElem? hx)
        exact ⟨hs.mem, hs.linked, hs.key_eq, hs.range_eq, hs.weight_eq⟩

/-- **The search finds linked chains**: they start at the source and end at a type that is equal to
the one looked for, and their weight is that of their steps. -/
theorem CastTable.search_linked (hc : t.Closed s T key P) (hT : T source)
    {c : Chain} {tied : Bool} (h : (t.search s source range q).outcome = .ok (.chain c tied)) :
    Step.Linked key s P source range c.steps ∧ Step.totalWeight c.steps = c.weight ∧
      ∃ u, T u ∧ key (Step.typeAfter source c.steps) = key u ∧
        (s.compare u q.destination).outcome = .ok true := by
  have start : ∀ x ∈ [(⟨source, .identity, range, none, false, false⟩ : Reached)],
      x.Sound s T key P source range := by
    intro x hx
    obtain rfl := List.mem_singleton.mp hx
    exact ⟨hT, trivial, rfl, rfl, rfl⟩
  obtain ⟨r, hr, rfl, hcmp⟩ := searchFrom_sound hc start h
  exact ⟨hr.linked, hr.weight_eq, r.type, hr.mem, hr.key_eq, hcmp⟩

end Search

end Gauge
