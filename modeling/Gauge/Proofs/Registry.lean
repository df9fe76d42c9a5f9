import Gauge.Registry
import Mathlib.Algebra.Ring.Nat
import Mathlib.Data.List.Nodup

/-!
# Proofs — identifiers of registered types

What a registry answers is compared with the record of what it was asked.  The record alone says
which identifiers are live: those given out and not taken back since.  Places and generations are
counted with 32 bits.  As long as neither count starts anew (`Registry.Spared`), the registry agrees
with its record in every answer (`Registry.Faithful`).

Each request is described by what it does to one place (`Registry.Filled`, `Registry.Emptied`); from
that the invariant `Registry.Kept` follows for every sequence of requests.
-/

namespace Gauge

namespace Registry

/-- What a registry can be asked to do. -/
inductive Op where
  | register (t : Ty)
  | deregister (id : TypeId)

/-- A request and what came of it. -/
inductive Event where
  | registered (id : TypeId) (t : Ty)
  | deregistered (id : TypeId) (found : Bool)
deriving DecidableEq

namespace Event

/-- Whether the identifier is to be taken back, whatever the answer. -/
def returns (id : TypeId) : Event → Bool
  | .registered _ _ => false
  | .deregistered other _ => other == id

/-- Whether the identifier is taken back. -/
def frees (id : TypeId) : Event → Bool
  | .registered _ _ => false
  | .deregistered other found => found && other == id

/-- Whether an identifier of the place is taken back. -/
def freesPlace (index : UInt32) : Event → Bool
  | .registered _ _ => false
  | .deregistered other found => found && other.index == index

/-- The identifier that is given out. -/
def issued? : Event → Option TypeId
  | .registered id _ => some id
  | .deregistered _ _ => none

end Event

/-- One request. -/
def step (r : Registry) : Op → Event × Registry
  | .register t => (.registered (r.register t).1 t, (r.register t).2)
  | .deregister id => (.deregistered id (r.deregister id).1, (r.deregister id).2)

/-- The record of some requests and the registry after them. -/
def trace (r : Registry) : List Op → List Event × Registry
  | [] => ([], r)
  | op :: ops => ((r.step op).1 :: ((r.step op).2.trace ops).1, ((r.step op).2.trace ops).2)

/-- The identifiers given out and not taken back since, with what they were given out for. -/
def live : List Event → List (TypeId × Ty)
  | [] => []
  | .registered id t :: log => if log.any (Event.returns id) then live log else (id, t) :: live log
  | .deregistered _ _ :: log => live log

/-- All identifiers that were given out. -/
def issued (log : List Event) : List TypeId := log.filterMap Event.issued?

/-- No place is taken back as often as there are generations, and at no time are there more live
identifiers than places can be numbered. -/
structure Spared (log : List Event) : Prop where
  generations : ∀ index, log.countP (Event.freesPlace index) < 2 ^ 32
  places : ∀ past, past <+: log → (live past).length ≤ 2 ^ 32

/-- The registry answers as its record says. -/
structure Faithful (log : List Event) (r : Registry) : Prop where
  /-- No identifier is given out twice. -/
  distinct : (issued log).Nodup
  /-- A live identifier finds the type it was given out for, any other that was finds nothing. -/
  lookup : ∀ id t, .registered id t ∈ log →
    r.lookup id = if (id, t) ∈ live log then some t else none
  /-- The live identifiers are those that can be taken back. -/
  deregister : ∀ id, (r.deregister id).1 = true ↔ ∃ t, (id, t) ∈ live log
  /-- An identifier that is not live any more was taken back once. -/
  once : ∀ id t, .registered id t ∈ log →
    log.countP (Event.frees id) = if (id, t) ∈ live log then 0 else 1
  size : r.size = (live log).length

/-! ### The record -/

section Record

variable {log : List Event} {id : TypeId} {t : Ty} {found : Bool}

theorem live_registered : live (log ++ [.registered id t]) = live log ++ [(id, t)] := by
  induction log with
  | nil => rfl
  | cons e log ih =>
    cases e with
    | registered other u =>
      have same : (log ++ [Event.registered id t]).any (Event.returns other) =
          log.any (Event.returns other) := by simp [Event.returns]
      simp only [List.cons_append, live, same, ih]
      split
      · rfl
      · rfl
    | deregistered other b => exact ih

theorem live_deregistered :
    live (log ++ [.deregistered id found]) = (live log).filter (·.1 ≠ id) := by
  induction log with
  | nil => rfl
  | cons e log ih =>
    cases e with
    | registered other u =>
      have more : (log ++ [Event.deregistered id found]).any (Event.returns other) =
          (log.any (Event.returns other) || id == other) := by simp [Event.returns]
      simp only [List.cons_append, live, more, ih]
      by_cases gone : log.any (Event.returns other) = true
      · simp [gone]
      · by_cases he : id = other
        · simp [gone, he]
        · simp [gone, he, Ne.symm he]
    | deregistered other b => exact ih

theorem issued_registered : issued (log ++ [.registered id t]) = issued log ++ [id] :=
  List.filterMap_append

theorem issued_deregistered : issued (log ++ [.deregistered id found]) = issued log := by
  simp [issued, Event.issued?]

theorem mem_issued : id ∈ issued log ↔ ∃ t, .registered id t ∈ log := by
  simp only [issued, List.mem_filterMap]
  constructor
  · rintro ⟨e, he, hid⟩
    cases e with
    | registered other t =>
      cases hid
      exact ⟨t, he⟩
    | deregistered other b => cases hid
  · rintro ⟨t, h⟩
    exact ⟨_, h, rfl⟩

/-- The live identifiers are among those given out, in their order. -/
theorem live_sublist_issued (log : List Event) :
    ((live log).map Prod.fst).Sublist (issued log) := by
  induction log with
  | nil => exact List.Sublist.slnil
  | cons e log ih =>
    cases e with
    | registered id t =>
      simp only [live, issued, List.filterMap_cons, Event.issued?]
      split
      · exact ih.cons _
      · exact ih.cons_cons _
    | deregistered id b => exact ih

theorem length_live_le (log : List Event) : (live log).length ≤ log.length := by
  have := (live_sublist_issued log).length_le
  rw [List.length_map] at this
  exact Nat.le_trans this (List.length_filterMap_le _ _)

theorem Spared.of_append {log' : List Event} (h : Spared (log ++ log')) : Spared log where
  generations index := by
    have := h.generations index
    rw [List.countP_append] at this
    omega
  places past hp := h.places past (hp.trans (List.prefix_append _ _))

/-- There is a number left for the place that is taken last. -/
theorem Spared.room (h : Spared (log ++ [.registered id t])) : (live log).length < 2 ^ 32 := by
  have := h.places _ (List.prefix_refl _)
  rw [live_registered, List.length_append, List.length_singleton] at this
  omega

theorem spared_of_length (h : log.length < 2 ^ 32) : Spared log where
  generations _ := Nat.lt_of_le_of_lt List.countP_le_length h
  places past hp :=
    Nat.le_trans (length_live_le past) (Nat.le_trans hp.length_le (Nat.le_of_lt h))

end Record

/-! ### Places -/

section Places

variable {r r' : Registry} {id other : TypeId} {t : Ty} {slots : List RegistrySlot}
  {slot : RegistrySlot}

/-- How often a place was given back. -/
def generationAt (r : Registry) (index : UInt32) : UInt32 :=
  (r.slots[index.toNat]?.map (·.generation)).getD 0

/-- Every place has a number of its own, and the free places are the empty ones, each free once. -/
structure Tidy (r : Registry) : Prop where
  length_le : r.slots.length ≤ 2 ^ 32
  nodup : r.free.Nodup
  mem_free : ∀ index, index ∈ r.free ↔ ∃ g, r.slots[index.toNat]? = some ⟨g, none⟩

/-- Where no place is free, all of them hold a type. -/
theorem Tidy.size_eq_length (hr : r.Tidy) (hf : r.free = []) : r.size = r.slots.length := by
  refine List.countP_eq_length.mpr fun slot hslot => ?_
  obtain ⟨i, hi, rfl⟩ := List.mem_iff_getElem.mp hslot
  by_contra hnone
  have empty : ∃ g, r.slots[(UInt32.ofNat i).toNat]? = some ⟨g, none⟩ := by
    rw [UInt32.toNat_ofNat_of_lt' (Nat.lt_of_lt_of_le hi hr.length_le), List.getElem?_eq_getElem hi]
    exact ⟨r.slots[i].generation, by rw [← Option.not_isSome_iff_eq_none.mp hnone]⟩
  have := (hr.mem_free _).mpr empty
  rw [hf] at this
  cases this

theorem lookup_eq_some :
    r.lookup id = some t ↔ r.slots[id.index.toNat]? = some ⟨id.generation, some t⟩ := by
  unfold lookup
  cases hs : r.slots[id.index.toNat]? with
  | none => simp
  | some s =>
    obtain ⟨g, u⟩ := s
    by_cases hg : g = id.generation
    · simp [hg]
    · simp [hg]

theorem generationAt_of_lookup (h : r.lookup id = some t) :
    r.generationAt id.index = id.generation := by
  simp [generationAt, lookup_eq_some.mp h]

/-- An identifier of another generation finds nothing. -/
theorem lookup_of_generation_ne (h : r.generationAt id.index ≠ id.generation) :
    r.lookup id = none := by
  cases hl : r.lookup id with
  | none => rfl
  | some t => exact absurd (generationAt_of_lookup hl) h

/-- What registering a type does: it fills a place that holds nothing, for the generation of that
place. -/
structure Filled (r : Registry) (id : TypeId) (t : Ty) (r' : Registry) : Prop where
  generation : id.generation = r.generationAt id.index
  vacant : r.lookup id = none
  slots : ∀ index : UInt32, r'.slots[index.toNat]? =
    if index = id.index then some ⟨id.generation, some t⟩ else r.slots[index.toNat]?
  size : r'.size = r.size + 1
  tidy : r'.Tidy

/-- What taking an identifier back does: its place is empty and free, and of the next generation. -/
structure Emptied (r : Registry) (id : TypeId) (r' : Registry) : Prop where
  slots : ∀ index : UInt32, r'.slots[index.toNat]? =
    if index = id.index then some ⟨id.generation + 1, none⟩ else r.slots[index.toNat]?
  size : r'.size + 1 = r.size
  tidy : r'.Tidy

/-- The number of places that hold a type changes with the place that is written. -/
theorem size_set {free free' : List UInt32} {index : Nat} {slot' : RegistrySlot}
    (h : slots[index]? = some slot) :
    size ⟨slots.set index slot', free⟩ + (if slot.type.isSome then 1 else 0) =
      size ⟨slots, free'⟩ + if slot'.type.isSome then 1 else 0 := by
  obtain ⟨hlt, rfl⟩ := List.getElem?_eq_some_iff.mp h
  simp only [size, List.countP_set hlt]
  have counted : slots[index].type.isSome = true → 0 < slots.countP (·.type.isSome) := fun hs =>
    List.countP_pos_iff.mpr ⟨_, List.getElem_mem hlt, hs⟩
  split
  · have := counted ‹_›
    omega
  · omega

theorem getElem?_set_of_some {index i : UInt32} {slot' : RegistrySlot}
    (h : slots[i.toNat]? = some slot) :
    (slots.set i.toNat slot')[index.toNat]? =
      if index = i then some slot' else slots[index.toNat]? := by
  obtain ⟨hlt, -⟩ := List.getElem?_eq_some_iff.mp h
  by_cases he : index = i
  · simp [he, hlt]
  · have hne : i.toNat ≠ index.toNat := fun h => he (UInt32.toNat_inj.mp h.symm)
    simp [he, hne]

theorem modify_eq_set_of_some {i : Nat} {f : RegistrySlot → RegistrySlot}
    (h : slots[i]? = some slot) : slots.modify i f = slots.set i (f slot) := by
  simp [List.modify_eq_set_getElem?, h]

/-- A type is registered in an empty place, as long as there is a number for one. -/
theorem register_filled (hr : r.Tidy) (room : r.size < 2 ^ 32) (h : r.register t = (id, r')) :
    r.Filled id t r' := by
  unfold register at h
  cases hf : r.free with
  | nil =>
    rw [hf] at h
    cases h
    rw [hr.size_eq_length hf] at room
    have number : (UInt32.ofNat r.slots.length).toNat = r.slots.length :=
      UInt32.toNat_ofNat_of_lt' room
    have slots : ∀ index : UInt32, (r.slots ++ [⟨0, some t⟩])[index.toNat]? =
        if index = .ofNat r.slots.length then some ⟨0, some t⟩ else r.slots[index.toNat]? := by
      intro index
      have same : index = .ofNat r.slots.length ↔ index.toNat = r.slots.length := by
        rw [← UInt32.toNat_inj, number]
      grind
    have bounded : (r.slots ++ [(⟨0, some t⟩ : RegistrySlot)]).length ≤ 2 ^ 32 := by
      rw [List.length_append, List.length_singleton]
      exact room
    refine ⟨by simp [generationAt, number], by simp [lookup, number], slots, by simp [size],
      bounded, by simp, ?_⟩
    intro index
    have hm := hr.mem_free index
    rw [hf] at hm
    rw [slots]
    split
    · simp_all
    · simpa using hm
  | cons i free =>
    rw [hf] at h
    cases h
    obtain ⟨hfree, hnodup⟩ := List.nodup_cons.mp (hf ▸ hr.nodup)
    obtain ⟨g, hi⟩ := (hr.mem_free i).mp (hf ▸ (.head _))
    rw [modify_eq_set_of_some hi, hi]
    refine ⟨by simp [generationAt, hi], by simp [lookup, hi],
      fun index => getElem?_set_of_some hi, size_set hi, by simpa using hr.length_le, hnodup, ?_⟩
    intro index
    have hm := hr.mem_free index
    rw [hf] at hm
    rw [getElem?_set_of_some hi]
    split
    · simp_all
    · simp_all

theorem deregister_emptied (hr : r.Tidy) (hl : r.lookup id = some t)
    (h : r.deregister id = (true, r')) : r.Emptied id r' := by
  have hi := lookup_eq_some.mp hl
  unfold deregister at h
  rw [if_pos (by rw [hl]; rfl), modify_eq_set_of_some hi] at h
  cases h
  refine ⟨fun index => getElem?_set_of_some hi, size_set hi, by simpa using hr.length_le,
    List.nodup_cons.mpr ⟨?_, hr.nodup⟩, ?_⟩
  · intro hfree
    obtain ⟨g, hg⟩ := (hr.mem_free _).mp hfree
    rw [hi] at hg
    cases hg
  · intro index
    rw [getElem?_set_of_some hi, List.mem_cons, hr.mem_free]
    split
    · simp_all
    · simp_all

theorem deregister_of_none (h : r.lookup id = none) : r.deregister id = (false, r) := by
  simp [deregister, h]

theorem deregister_found : (r.deregister id).1 = (r.lookup id).isSome := by
  unfold deregister
  split
  · simp_all
  · simp_all

theorem Filled.generationAt_eq (h : r.Filled id t r') (index : UInt32) :
    r'.generationAt index = r.generationAt index := by
  by_cases he : index = id.index
  · rw [he, ← h.generation]
    simp [generationAt, h.slots]
  · simp [generationAt, h.slots, he]

/-- A type that is registered is found under its identifier, and all others as before. -/
theorem Filled.lookup_eq (h : r.Filled id t r') (other : TypeId) :
    r'.lookup other = if other = id then some t else r.lookup other := by
  by_cases hi : other.index = id.index
  · by_cases hg : other.generation = id.generation
    · obtain rfl : other = id := by cases other; cases id; simp_all
      rw [if_pos rfl, lookup_eq_some, h.slots, if_pos rfl]
    · -- another generation of the place
      have now : r'.generationAt other.index ≠ other.generation := by
        rw [h.generationAt_eq, hi, ← h.generation]
        exact Ne.symm hg
      have before : r.generationAt other.index ≠ other.generation := h.generationAt_eq _ ▸ now
      rw [lookup_of_generation_ne now, lookup_of_generation_ne before]
      split
      · simp_all
      · rfl
  · have hne : other ≠ id := fun he => hi (he ▸ rfl)
    simp [lookup, h.slots, hi, hne]

theorem Emptied.generationAt_eq (h : r.Emptied id r') (index : UInt32) :
    r'.generationAt index =
      if index = id.index then id.generation + 1 else r.generationAt index := by
  by_cases he : index = id.index
  · simp [generationAt, h.slots, he]
  · simp [generationAt, h.slots, he]

theorem Emptied.lookup_eq (h : r.Emptied id r') (hl : r.lookup id = some t) (other : TypeId) :
    r'.lookup other = if other = id then none else r.lookup other := by
  by_cases hi : other.index = id.index
  · have now : r'.lookup other = none := by simp [lookup, h.slots, hi]
    rw [now]
    split
    · rfl
    · refine (lookup_of_generation_ne ?_).symm
      rw [hi, generationAt_of_lookup hl]
      intro hg
      cases other
      cases id
      simp_all
  · have hne : other ≠ id := fun he => hi (he ▸ rfl)
    simp [lookup, h.slots, hi, hne]

end Places

/-! ### Every sequence of requests -/

/-- What ties a registry to its record between two requests. -/
structure Kept (log : List Event) (r : Registry) : Prop where
  tidy : r.Tidy
  generation : ∀ index, (r.generationAt index).toNat = log.countP (Event.freesPlace index)
  mem_live : ∀ id t, (id, t) ∈ live log ↔ r.lookup id = some t
  /-- What was given out is found, or of a generation that is over. -/
  given : ∀ id t, .registered id t ∈ log →
    r.lookup id = some t ∨ id.generation < r.generationAt id.index
  distinct : (issued log).Nodup
  once : ∀ id, log.countP (Event.frees id) = if id ∈ issued log ∧ r.lookup id = none then 1 else 0
  size_eq : r.size = (live log).length

namespace Kept

variable {log : List Event} {r r' : Registry} {id : TypeId} {t : Ty}

protected theorem empty : Kept [] empty where
  tidy := ⟨Nat.zero_le _, List.nodup_nil, by simp [Registry.empty]⟩
  generation := by simp [generationAt, Registry.empty]
  mem_live := by simp [live, lookup, Registry.empty]
  given := by simp
  distinct := List.nodup_nil
  once := by simp [issued]
  size_eq := rfl

/-- An identifier that finds nothing although its place is of its generation is new. -/
theorem not_issued (h : Kept log r) (hl : r.lookup id = none)
    (hg : id.generation = r.generationAt id.index) : id ∉ issued log := by
  intro hid
  obtain ⟨t, ht⟩ := mem_issued.mp hid
  rcases h.given id t ht with hsome | hlt
  · rw [hl] at hsome
    cases hsome
  · rw [← hg] at hlt
    exact UInt32.lt_irrefl _ hlt

/-- A registration keeps the registry in step with its record. -/
theorem registered (h : Kept log r) (hf : r.Filled id t r') :
    Kept (log ++ [.registered id t]) r' where
  tidy := hf.tidy
  generation index := by
    rw [hf.generationAt_eq, h.generation]
    simp [Event.freesPlace]
  mem_live other u := by
    rw [live_registered, List.mem_append, h.mem_live, hf.lookup_eq]
    by_cases he : other = id
    · simp [he, hf.vacant, eq_comm]
    · simp [he]
  given other u hu := by
    rw [hf.generationAt_eq, hf.lookup_eq]
    rcases List.mem_append.mp hu with hu | hu
    · rcases h.given other u hu with hsome | hlt
      · have hne : other ≠ id := by
          rintro rfl
          rw [hf.vacant] at hsome
          cases hsome
        exact Or.inl (by rw [if_neg hne, hsome])
      · exact .inr hlt
    · cases List.mem_singleton.mp hu
      exact .inl (if_pos rfl)
  distinct := by
    rw [issued_registered, List.nodup_append_comm, List.singleton_append]
    exact List.nodup_cons.mpr ⟨h.not_issued hf.vacant hf.generation, h.distinct⟩
  once other := by
    have new := h.not_issued hf.vacant hf.generation
    rw [List.countP_append, h.once, issued_registered, hf.lookup_eq]
    by_cases he : other = id
    · simp [he, new, Event.frees]
    · simp [he, Event.frees]
  size_eq := by
    rw [hf.size, h.size_eq, live_registered]
    simp

/-- One identifier is live once. -/
theorem length_filter_live (h : Kept log r) (hl : r.lookup id = some t) :
    ((live log).filter (·.1 ≠ id)).length + 1 = (live log).length := by
  have nodup : ((live log).map Prod.fst).Nodup := (live_sublist_issued log).nodup h.distinct
  have mem : id ∈ (live log).map Prod.fst :=
    List.mem_map.mpr ⟨(id, t), (h.mem_live id t).mpr hl, rfl⟩
  have one : (live log).countP (fun p => p.1 == id) = 1 := by
    have := List.count_eq_one_of_mem nodup mem
    rwa [List.count, List.countP_map] at this
  rw [List.length_eq_countP_add_countP (fun p => p.1 == id) (l := live log), one,
    ← List.countP_eq_length_filter, Nat.add_comm]
  congr 2
  funext p
  simp

/-- So does a type that is taken back. -/
theorem freed (h : Kept log r) (hl : r.lookup id = some t) (he : r.Emptied id r')
    (hs : Spared (log ++ [.deregistered id true])) : Kept (log ++ [.deregistered id true]) r' := by
  have count : (id.generation + 1).toNat = id.generation.toNat + 1 := by
    have := hs.generations id.index
    rw [List.countP_append, ← h.generation, generationAt_of_lookup hl] at this
    simp only [List.countP_singleton, Event.freesPlace, beq_self_eq_true, Bool.and_self,
      if_true] at this
    rw [UInt32.toNat_add]
    exact Nat.mod_eq_of_lt this
  have issuedBefore : id ∈ issued log :=
    (live_sublist_issued log).subset (List.mem_map.mpr ⟨(id, t), (h.mem_live id t).mpr hl, rfl⟩)
  constructor
  case tidy => exact he.tidy
  case generation =>
    intro index
    rw [he.generationAt_eq, List.countP_append, ← h.generation]
    by_cases hi : index = id.index
    · rw [if_pos hi, count, hi, generationAt_of_lookup hl]
      simp [Event.freesPlace]
    · simp [hi, Ne.symm hi, Event.freesPlace]
  case mem_live =>
    intro other u
    rw [live_deregistered, List.mem_filter, h.mem_live, he.lookup_eq hl]
    by_cases hid : other = id
    · simp [hid]
    · simp [hid]
  case given =>
    intro other u hu
    have hu : .registered other u ∈ log := by simpa using hu
    rw [he.lookup_eq hl, he.generationAt_eq]
    by_cases hid : other = id
    · -- the place is of the next generation
      refine .inr ?_
      rw [hid, if_pos rfl, UInt32.lt_iff_toNat_lt, count]
      exact Nat.lt_succ_self _
    rw [if_neg hid]
    refine (h.given other u hu).imp_right fun hlt => ?_
    split
    case isFalse => exact hlt
    case isTrue hi =>
      rw [hi, generationAt_of_lookup hl, UInt32.lt_iff_toNat_lt] at hlt
      rw [UInt32.lt_iff_toNat_lt, count]
      exact Nat.lt_succ_of_lt hlt
  case distinct => exact issued_deregistered.symm ▸ h.distinct
  case once =>
    intro other
    rw [List.countP_append, h.once, issued_deregistered, he.lookup_eq hl]
    by_cases hid : other = id
    · simp [hid, hl, issuedBefore, Event.frees]
    · simp [hid, Ne.symm hid, Event.frees]
  case size_eq =>
    rw [live_deregistered]
    have := h.length_filter_live hl
    have := he.size
    have := h.size_eq
    omega

/-- So does a request that is refused. -/
theorem refused (h : Kept log r) (hl : r.lookup id = none) :
    Kept (log ++ [.deregistered id false]) r := by
  have same : live (log ++ [.deregistered id false]) = live log := by
    rw [live_deregistered, List.filter_eq_self]
    rintro ⟨other, u⟩ hu
    have hu := (h.mem_live other u).mp hu
    have hne : other ≠ id := by
      rintro rfl
      rw [hl] at hu
      cases hu
    simpa using hne
  constructor
  case tidy => exact h.tidy
  case generation =>
    intro index
    simp [h.generation, Event.freesPlace]
  case mem_live => exact same ▸ h.mem_live
  case given =>
    intro other u hu
    exact h.given other u (by simpa using hu)
  case distinct => exact issued_deregistered.symm ▸ h.distinct
  case once =>
    intro other
    simp [issued_deregistered, h.once, Event.frees]
  case size_eq => exact same ▸ h.size_eq

/-- One request keeps the registry and its record tied. -/
theorem step (h : Kept log r) (op : Op) (hs : Spared (log ++ [(r.step op).1])) :
    Kept (log ++ [(r.step op).1]) (r.step op).2 := by
  cases op with
  | register t =>
    have room : r.size < 2 ^ 32 := by
      rw [h.size_eq]
      exact hs.room
    exact h.registered (register_filled h.tidy room rfl)
  | deregister id =>
    have event : (r.step (.deregister id)).1 = .deregistered id (r.lookup id).isSome := by
      rw [← deregister_found]
      rfl
    rw [event] at hs ⊢
    cases hl : r.lookup id with
    | none =>
      have same : (r.step (.deregister id)).2 = r :=
        congrArg Prod.snd (deregister_of_none hl)
      rw [same]
      exact h.refused hl
    | some t =>
      rw [hl] at hs
      have found : r.deregister id = (true, (r.deregister id).2) :=
        Prod.ext (deregister_found.trans (by rw [hl]; rfl)) rfl
      exact h.freed hl (deregister_emptied h.tidy hl found) hs

/-- And so do all. -/
theorem trace (h : Kept log r) (ops : List Op) (hs : Spared (log ++ (r.trace ops).1)) :
    Kept (log ++ (r.trace ops).1) (r.trace ops).2 := by
  induction ops generalizing log r with
  | nil => simpa [Registry.trace] using h
  | cons op ops ih =>
    have assoc : log ++ (r.trace (op :: ops)).1 =
        (log ++ [(r.step op).1]) ++ ((r.step op).2.trace ops).1 := by simp [Registry.trace]
    rw [assoc] at hs ⊢
    exact ih (h.step op hs.of_append) hs

theorem lookup_of_not_live (h : Kept log r) (ht : .registered id t ∈ log)
    (hlive : (id, t) ∉ live log) : r.lookup id = none := by
  rw [h.mem_live] at hlive
  have hlt := (h.given id t ht).resolve_left hlive
  exact lookup_of_generation_ne (UInt32.ne_of_lt hlt).symm

/-- A registry that keeps to its record answers as it says. -/
theorem faithful (h : Kept log r) : Faithful log r where
  distinct := h.distinct
  lookup id t ht := by
    by_cases hlive : (id, t) ∈ live log
    · rw [if_pos hlive, (h.mem_live id t).mp hlive]
    · rw [if_neg hlive, h.lookup_of_not_live ht hlive]
  deregister id := by
    rw [deregister_found, Option.isSome_iff_exists]
    exact exists_congr fun t => (h.mem_live id t).symm
  once id t ht := by
    have given : id ∈ issued log := mem_issued.mpr ⟨t, ht⟩
    rw [h.once]
    by_cases hlive : (id, t) ∈ live log
    · simp [hlive, (h.mem_live id t).mp hlive]
    · simp [hlive, given, h.lookup_of_not_live ht hlive]
  size := h.size_eq

end Kept

/-! ### Taking back many -/

section TakingBack

variable {log : List Event}

theorem live_trace_deregister (r : Registry) (ids : List TypeId) :
    live (log ++ (r.trace (ids.map .deregister)).1) = (live log).filter (·.1 ∉ ids) := by
  induction ids generalizing r log with
  | nil => simp [trace]
  | cons id ids ih =>
    simp only [List.map_cons, trace, step]
    rw [← List.singleton_append, ← List.append_assoc, ih, live_deregistered, List.filter_filter]
    congr 1
    funext p
    simp [Bool.and_comm]

theorem trace_deregister (r : Registry) (ids : List TypeId) :
    (r.trace (ids.map .deregister)).2 = ids.foldl (fun r id => (r.deregister id).2) r := by
  induction ids generalizing r with
  | nil => rfl
  | cons id ids ih => exact ih _

end TakingBack

/-! ### Registering many -/

section Registering

variable {ts : List Ty} {t : Ty} {i : Nat}

/-- While no place is free, the types that are registered get new places, one after the other. -/
theorem trace_register (slots : List RegistrySlot) (ts : List Ty) :
    ((Registry.mk slots []).trace (ts.map .register)).2 =
      ⟨slots ++ ts.map fun t => ⟨0, some t⟩, []⟩ := by
  induction ts generalizing slots with
  | nil => simp [trace]
  | cons t ts ih =>
    simp only [List.map_cons, trace, step, register, ih, List.append_assoc]
    rfl

theorem registered_mem_trace (slots : List RegistrySlot) (h : ts[i]? = some t) :
    .registered ⟨.ofNat (slots.length + i), 0⟩ t ∈
      ((Registry.mk slots []).trace (ts.map .register)).1 := by
  induction ts generalizing slots i with
  | nil => cases h
  | cons u ts ih =>
    simp only [List.map_cons, trace, step, register]
    cases i with
    | zero =>
      cases h
      exact .head _
    | succ i =>
      have rest := ih (slots ++ [⟨0, some u⟩]) h
      rw [List.length_append, List.length_singleton, Nat.add_assoc, Nat.add_comm 1] at rest
      exact .tail _ rest

theorem countP_freesPlace_register (r : Registry) (ts : List Ty) (index : UInt32) :
    (r.trace (ts.map .register)).1.countP (Event.freesPlace index) = 0 := by
  induction ts generalizing r with
  | nil => rfl
  | cons t ts ih =>
    rw [List.map_cons, trace, List.countP_cons_of_neg (by simp [step, Event.freesPlace])]
    exact ih _

end Registering

end Registry

end Gauge
