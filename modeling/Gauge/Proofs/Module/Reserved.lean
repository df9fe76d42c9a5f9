import Mathlib.Data.List.Nodup
import Gauge.Proofs.Module.Structs

/-!
# Proofs — what the first pass leaves

Names are reserved in the order of the items: a struct and a function have their places among the
structs and the functions as their numbers.  `Scope.Reserves` says what the scope knows of all of
them, and the first pass succeeds if no two structs share a name (`Module.reserve_defined`).
-/

namespace Gauge

def Item.struct? : Item → Option StructDecl
  | .struct decl => some decl
  | .function _ => none

def Item.function? : Item → Option FunctionDecl
  | .struct _ => none
  | .function decl => some decl

namespace Module

/-- The structs among some items. -/
def structsOf (items : List Item) : List StructDecl := items.filterMap Item.struct?

/-- The functions among some items. -/
def functionsOf (items : List Item) : List FunctionDecl := items.filterMap Item.function?

@[simp] theorem structsOf_struct (d : StructDecl) (items : List Item) :
    structsOf (.struct d :: items) = d :: structsOf items := rfl

@[simp] theorem structsOf_function (d : FunctionDecl) (items : List Item) :
    structsOf (.function d :: items) = structsOf items := rfl

@[simp] theorem functionsOf_struct (d : StructDecl) (items : List Item) :
    functionsOf (.struct d :: items) = functionsOf items := rfl

@[simp] theorem functionsOf_function (d : FunctionDecl) (items : List Item) :
    functionsOf (.function d :: items) = d :: functionsOf items := rfl

/-! ### Numbers -/

/-- The functions of a name, by their places. -/
def numbersOf (name : String) (ds : List FunctionDecl) : List Nat :=
  (ds.zipIdx.filter (·.1.name = name)).map (·.2)

/-- What a name stands for, given the functions of that name. -/
def bindingOf : List Nat → Option Binding
  | [] => none
  | ids => some (.functions ids)

theorem mem_numbersOf {name : String} {ds : List FunctionDecl} {i : Nat} :
    i ∈ numbersOf name ds ↔ ∃ d, ds[i]? = some d ∧ d.name = name := by
  simp [numbersOf, List.mem_zipIdx_iff_getElem?]

theorem nodup_numbersOf (name : String) (ds : List FunctionDecl) : (numbersOf name ds).Nodup := by
  have places : (ds.zipIdx.map (·.2)).Nodup := by
    rw [List.zipIdx_map_snd]
    exact List.nodup_range'
  exact places.sublist (List.filter_sublist.map _)

theorem numbersOf_concat (name : String) (ds : List FunctionDecl) (d : FunctionDecl) :
    numbersOf name (ds ++ [d]) =
      if d.name = name then numbersOf name ds ++ [ds.length] else numbersOf name ds := by
  unfold numbersOf
  rw [List.zipIdx_append, List.filter_append, List.map_append]
  split
  · next h => simp [h]
  · next h => simp [h]

/-- The structs of a module with their numbers, which are counted from `start`. -/
def pendingStructs (start : Nat) (ds : List StructDecl) : List PendingStruct :=
  (ds.zipIdx start).map fun p => ⟨⟨p.2, p.1.name⟩, p.1⟩

/-- The functions of a module with their numbers, which are counted from `start`. -/
def pendingFunctions (start : Nat) (ds : List FunctionDecl) : List PendingFunction :=
  (ds.zipIdx start).map fun p => ⟨p.2, p.1⟩

end Module

open Module

/-- A scope in which the given structs and functions of a module are reserved, and nothing else
happened yet. -/
structure Scope.Reserves (limits : Limits) (structs : List StructDecl)
    (functions : List FunctionDecl)
    (s : Scope) : Prop where
  named : (structs.map (·.name)).Nodup
  entries : s.structs.entries = structs.map fun d => ⟨d.name, none, none⟩
  declared : s.world.functions = functions.map fun d => ⟨d.name, none⟩
  types : ∀ name, s.frame.types.lookup name =
    (structs.findIdx? (·.name = name)).map fun i => .struct .none ⟨i, name⟩
  symbols : ∀ name, s.frame.symbols.lookup name = bindingOf (numbersOf name functions)
  returnType : s.frame.returnType? = none
  outer : s.outer = [(Scope.standard limits).frame]
  casts : s.world.casts = Builtin.casts
  overloads : s.world.overloads = Builtin.overloads
  limits : s.world.limits = limits

namespace Scope.Reserves

variable {limits : Limits} {structs : List StructDecl} {functions : List FunctionDecl}
  {s s' : Scope}

theorem start (limits : Limits) : (Scope.standard limits).push.Reserves limits [] [] :=
  ⟨List.nodup_nil, rfl, rfl, fun _ => rfl, fun _ => rfl, rfl, rfl, rfl, rfl, rfl⟩

theorem known (h : s.Reserves limits structs functions) (name : String) :
    (s.frame.types.lookup name).isSome = true ↔ name ∈ structs.map (·.name) := by
  rw [h.types, Option.isSome_map, List.findIdx?_isSome]
  simp only [List.any_eq_true, decide_eq_true_eq, List.mem_map]

/-- A struct is declared only if its name is new. -/
theorem new_of_declareStruct (h : s.Reserves limits structs functions) {name : String}
    {position : Position}
    {r : StructRef} (hd : s.declareStruct name position = .ok (r, s')) :
    name ∉ structs.map (·.name) := by
  obtain ⟨⟨id, s₁⟩, h₁, -⟩ := bind_eq_ok.mp hd
  unfold Scope.registerType at h₁
  split at h₁
  · cases h₁
  · next hnew => exact mt (h.known name).mpr hnew

/-- A struct whose name is new is declared. -/
theorem declareStruct (h : s.Reserves limits structs functions) (d : StructDecl)
    (position : Position)
    (hnew : d.name ∉ structs.map (·.name)) :
    ∃ s', s.declareStruct d.name position = .ok (⟨structs.length, d.name⟩, s') ∧
      s'.Reserves limits (structs ++ [d]) functions := by
  have length : s.structs.entries.length = structs.length := by rw [h.entries, List.length_map]
  have new : (s.frame.types.lookup d.name).isSome = false :=
    Bool.eq_false_iff.mpr (mt (h.known d.name).mp hnew)
  unfold Scope.declareStruct Scope.registerType
  simp only [Structs.declare, Scope.withStructs, new, Bool.false_eq_true, if_false, length]
  refine ⟨_, rfl, ?_, ?_, h.declared, ?_, h.symbols, h.returnType, h.outer, h.casts, h.overloads,
    h.limits⟩
  · rw [List.map_append, List.map_singleton]
    exact List.nodup_append_comm.mp (List.nodup_cons.mpr ⟨hnew, h.named⟩)
  · show s.structs.entries ++ [_] = _
    rw [h.entries, List.map_append, List.map_singleton]
  · intro name
    show ((d.name, Ty.struct .none ⟨structs.length, d.name⟩) :: s.frame.types).lookup name = _
    rw [List.lookup_cons, List.findIdx?_append, h.types]
    by_cases heq : name = d.name
    · subst heq
      have none : structs.findIdx? (·.name = d.name) = Option.none := by
        rw [List.findIdx?_eq_none_iff]
        intro x hx
        exact decide_eq_false fun hn => hnew (hn ▸ List.mem_map_of_mem hx)
      simp [none]
    · simp [beq_false_of_ne heq, Ne.symm heq]

/-- A function is always reserved. -/
theorem reserveFunction (h : s.Reserves limits structs functions) (d : FunctionDecl)
    (position : Position) :
    ∃ s', s.reserveFunction d.name position = .ok (functions.length, s') ∧
      s'.Reserves limits structs (functions ++ [d]) := by
  have length : s.world.functions.length = functions.length := by rw [h.declared, List.length_map]
  -- whatever the name was bound to before, the new function is added to it
  have added : s.reserveFunction d.name position = .ok (functions.length,
      ({ s with world := { s.world with functions := s.world.functions ++ [⟨d.name, none⟩] } } :
        Scope).bind d.name (.functions (numbersOf d.name functions ++ [functions.length]))) := by
    unfold Scope.reserveFunction
    rw [h.symbols]
    cases numbersOf d.name functions <;> simp [bindingOf, length]
  refine ⟨_, added, h.named, h.entries, ?_, h.types, ?_, h.returnType, h.outer, h.casts,
    h.overloads, h.limits⟩
  · show s.world.functions ++ [_] = _
    rw [h.declared, List.map_append, List.map_singleton]
  · intro name
    show ((d.name, _) :: s.frame.symbols).lookup name = _
    rw [List.lookup_cons, numbersOf_concat, h.symbols]
    by_cases heq : name = d.name
    · subst heq
      simp only [beq_self_eq_true, if_true]
      cases numbersOf d.name functions <;> rfl
    · simp [beq_false_of_ne heq, Ne.symm heq]

end Scope.Reserves

namespace Module

variable {limits : Limits}

/-- What the first pass gives, from a scope in which some names are reserved already. -/
theorem reserve_from : ∀ {items : List Item} {structs : List StructDecl}
    {functions : List FunctionDecl} {s s' : Scope} {reserved : Reserved},
      s.Reserves limits structs functions →
    reserve s items = .ok (reserved, s') →
    reserved = ⟨pendingStructs structs.length (structsOf items),
        pendingFunctions functions.length (functionsOf items)⟩ ∧
      s'.Reserves limits (structs ++ structsOf items)
        (functions ++ functionsOf items)
  | [], structs, functions, s, s', reserved, h, hr => by
    cases hr
    exact ⟨rfl, by simpa [structsOf, functionsOf] using h⟩
  | .struct d :: items, structs, functions, s, s', reserved, h, hr => by
    obtain ⟨⟨ref, s₁⟩, hd, hr⟩ := bind_eq_ok.mp hr
    obtain ⟨⟨rest, s₂⟩, hrest, hr⟩ := bind_eq_ok.mp hr
    cases hr
    obtain ⟨s₁', hd', h₁⟩ := h.declareStruct d d.span.start (h.new_of_declareStruct hd)
    cases hd.symm.trans hd'
    obtain ⟨rfl, h'⟩ := reserve_from h₁ hrest
    exact ⟨by simp [pendingStructs],
      by simpa using h'⟩
  | .function d :: items, structs, functions, s, s', reserved, h, hr => by
    obtain ⟨⟨id, s₁⟩, hd, hr⟩ := bind_eq_ok.mp hr
    obtain ⟨⟨rest, s₂⟩, hrest, hr⟩ := bind_eq_ok.mp hr
    cases hr
    obtain ⟨s₁', hd', h₁⟩ := h.reserveFunction d d.span.start
    cases hd.symm.trans hd'
    obtain ⟨rfl, h'⟩ := reserve_from h₁ hrest
    exact ⟨by simp [pendingFunctions],
      by simpa using h'⟩

/-- The first pass succeeds if no two structs share a name. -/
theorem reserve_defined : ∀ {items : List Item} {structs : List StructDecl}
    {functions : List FunctionDecl} {s : Scope}, s.Reserves limits structs functions →
    ((structs ++ structsOf items).map (·.name)).Nodup →
    ∃ r, reserve s items = .ok r
  | [], _, _, s, _, _ => ⟨_, rfl⟩
  | .struct d :: items, structs, functions, s, h, hn => by
    have hn : ((structs ++ [d] ++ structsOf items).map (·.name)).Nodup := by
      simpa using hn
    have hnew : d.name ∉ structs.map (·.name) := by
      rw [List.map_append, List.map_append] at hn
      exact fun hmem => List.disjoint_of_nodup_append hn.of_append_left hmem (by simp)
    obtain ⟨s₁, hd, h₁⟩ := h.declareStruct d d.span.start hnew
    obtain ⟨r, hr⟩ := reserve_defined h₁ hn
    exact ⟨_, by rw [reserve, hd, ok_bind]; dsimp only; rw [hr]; rfl⟩
  | .function d :: items, structs, functions, s, h, hn => by
    rw [structsOf_function] at hn
    obtain ⟨s₁, hd, h₁⟩ := h.reserveFunction d d.span.start
    obtain ⟨r, hr⟩ := reserve_defined h₁ hn
    exact ⟨_, by rw [reserve, hd, ok_bind]; dsimp only; rw [hr]; rfl⟩

/-- What the first pass gives. -/
theorem reserve_reserves {items : List Item} {reserved : Reserved} {s : Scope}
    (h : reserve (Scope.standard limits).push items = .ok (reserved, s)) :
    reserved = ⟨pendingStructs 0 (structsOf items),
        pendingFunctions 0 (functionsOf items)⟩ ∧
      s.Reserves limits (structsOf items) (functionsOf items) :=
  reserve_from (.start limits) h

/-- A function has its place as its number. -/
theorem mem_pendingFunctions {ds : List FunctionDecl} {p : PendingFunction} :
    p ∈ pendingFunctions 0 ds ↔ ds[p.id]? = some p.decl := by
  simp only [pendingFunctions, List.mem_map, List.mem_zipIdx_iff_getElem?]
  constructor
  · rintro ⟨⟨d, i⟩, hd, rfl⟩
    exact hd
  · intro h
    exact ⟨(p.decl, p.id), h, rfl⟩

/-- The number of a function tells which one it is. -/
theorem eq_of_mem_pendingFunctions {ds : List FunctionDecl} {p q : PendingFunction}
    (hp : p ∈ pendingFunctions 0 ds) (hq : q ∈ pendingFunctions 0 ds) (h : p.id = q.id) :
    p = q := by
  obtain ⟨i, d⟩ := p
  obtain ⟨j, e⟩ := q
  obtain rfl : i = j := h
  have same : some d = some e :=
    (mem_pendingFunctions.mp hp).symm.trans (mem_pendingFunctions.mp hq)
  cases same
  rfl

theorem map_decl_pendingStructs (ds : List StructDecl) :
    (pendingStructs 0 ds).map (·.decl) = ds := by
  rw [pendingStructs, List.map_map]
  exact List.zipIdx_map_fst 0 ds

theorem map_name_pendingStructs (ds : List StructDecl) :
    (pendingStructs 0 ds).map (·.decl.name) = ds.map (·.name) := by
  conv_rhs => rw [← map_decl_pendingStructs ds, List.map_map]
  rfl

theorem mem_pendingStructs {ds : List StructDecl} {p : PendingStruct} :
    p ∈ pendingStructs 0 ds ↔ ds[p.ref.id]? = some p.decl ∧ p.ref.name = p.decl.name := by
  simp only [pendingStructs, List.mem_map, List.mem_zipIdx_iff_getElem?]
  constructor
  · rintro ⟨⟨d, i⟩, hd, rfl⟩
    exact ⟨hd, rfl⟩
  · rintro ⟨h, hn⟩
    obtain ⟨⟨i, n⟩, d⟩ := p
    obtain rfl : n = d.name := hn
    exact ⟨(d, i), h, rfl⟩

end Module

end Gauge
