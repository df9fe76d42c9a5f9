import Mathlib.Data.List.Nodup
import Mathlib.Data.List.Perm.Subperm
import Gauge.Proofs.Module
import Gauge.Proofs.Ty.Room
import Gauge.Proofs.Typed.Safe

/-!
# Proofs — laying out the structs of a module

After the names of a module are reserved (`Scope.Lists`) its structs are laid out, those held by
value before those that hold them.  `Module.Laid` says what the layout of a struct is and
`Module.Takes` what room it needs, given the structs that it holds; no order of the structs is in
either.

The pass gives every struct its layout (`Module.completeStructs_safe`).  No struct is completed
twice and no layout is asked for that is not there yet.  The structs that are being laid out around
each other are different ones, so there is depth enough for all of them.  What can go wrong is that
a struct holds itself, or does not fit in 32 bits.
-/

namespace Gauge

open Module

/-! ### Tables of structs -/

/-- The room of a value, where structs take the given room. -/
def Ty.room (rooms : StructRef → Room) : Ty → Room
  | .scalar _ c => ⟨c.size.toNat, c.alignment.toNat⟩
  | .pointer _ _ _ => ⟨pointerSize.toNat, pointerSize.toNat⟩
  | .function _ _ _ _ _ => ⟨0, 1⟩
  | .struct _ r => rooms r

theorem Ty.room_congr {rooms rooms' : StructRef → Room} {t : Ty}
    (h : ∀ g r, t = .struct g r → rooms r = rooms' r) : t.room rooms = t.room rooms' := by
  cases t with
  | struct g r => exact h g r rfl
  | _ => rfl

namespace Structs

variable {K : StructRef → Prop} {within : List String} {t t' t'' : Structs} {r : StructRef}
  {members : List (String × Ty)}

/-- What laying out structs does to the table, while those named in `within` are being laid out
around them: a layout that is there stays, and the structs around have none yet. -/
structure Grows (K : StructRef → Prop) (within : List String) (t t' : Structs) : Prop where
  ready : ∀ r, t.isReady r = true → t'.isReady r = true
  kept : ∀ r, K r → r.name ∈ within → t'.layout? r = t.layout? r

theorem Grows.refl : Grows K within t t := ⟨fun _ h => h, fun _ _ _ => rfl⟩

theorem Grows.trans (h : Grows K within t t') (h' : Grows K within t' t'') :
    Grows K within t t'' where
  ready r hr := h'.ready r (h.ready r hr)
  kept r hr hw := (h'.kept r hr hw).trans (h.kept r hr hw)

theorem Grows.mono {name : String} (h : Grows K (name :: within) t t') : Grows K within t t' :=
  ⟨h.ready, fun r hr hw => h.kept r hr (.tail _ hw)⟩

theorem layout?_update (t : Structs) (r x : StructRef) (f : StructEntry → StructEntry) :
    (t.update r f).layout? x =
      if x.id = r.id then (t.entry? x).bind fun e => (f e).layout else t.layout? x := by
  unfold layout? entry? update
  rw [List.getElem?_modify]
  split
  · next h =>
    rw [if_pos h.symm]
    cases t.entries[x.id]? <;> rfl
  · next h =>
    rw [if_neg (Ne.symm h)]
    cases t.entries[x.id]? <;> rfl

/-- Gives a struct a layout. -/
def withLayout (t : Structs) (r : StructRef) (l : Layout) : Structs :=
  t.update r fun e => { e with layout := some l }

theorem complete_eq_lay (hnew : t.isReady r = false) :
    t.complete r members = (t.lay members).map (t.withLayout r) := by
  unfold complete
  rw [if_neg (by rw [hnew]; exact Bool.false_ne_true)]
  cases t.lay members <;> rfl

theorem isReady_withLayout (hid : r.id < t.entries.length) (l : Layout) :
    (t.withLayout r l).layout? r = some l := by
  rw [withLayout, layout?_update, if_pos rfl, entry?, List.getElem?_eq_getElem hid]
  rfl

theorem withLayout_grows (hK : StructRef.Distinct K) (hr : K r) (hw : r.name ∉ within)
    (l : Layout) :
    Grows K within t (t.withLayout r l) where
  ready x hx := by
    unfold isReady at hx ⊢
    rw [withLayout, layout?_update]
    split
    · obtain ⟨l, hl⟩ := Option.isSome_iff_exists.mp hx
      obtain ⟨e, he, -⟩ := Option.bind_eq_some_iff.mp hl
      rw [he]
      rfl
    · exact hx
  kept x hx hmem := by
    rw [withLayout, layout?_update, if_neg]
    intro heq
    obtain rfl := hK x r hx hr (.inl heq)
    exact hw hmem

/-- What a value takes, if the structs in it take the given room. -/
theorem room_eq {rooms : StructRef → Room} {u : Ty}
    (h : ∀ g r, u = .struct g r → ∃ l, t.layout? r = some l ∧ l.room = rooms r) :
    t.room u = .ok (u.room rooms) := by
  cases u with
  | struct g r =>
    obtain ⟨l, hl, hr⟩ := h g r rfl
    rw [room_eq_ok]
    refine ⟨l.size, l.alignment, ?_, ?_, hr.symm⟩
    · simp only [size, layout, hl, Except.map]
    · simp only [alignment, layout, hl, Except.map]
  | _ => rfl

end Structs

/-! ### What a layout is -/

/-- What an entry of the table has besides a layout. -/
def StructEntry.label (e : StructEntry) : String × Option (List Mark) := (e.name, e.fingerprint)

theorem Structs.labels_withLayout (t : Structs) (r : StructRef) (l : Layout) :
    (t.withLayout r l).entries.map StructEntry.label = t.entries.map StructEntry.label := by
  refine List.ext_getElem? fun i => ?_
  simp only [withLayout, update, List.getElem?_map, List.getElem?_modify]
  cases t.entries[i]? with
  | none => rfl
  | some e => by_cases hi : r.id = i <;> simp [hi, StructEntry.label]

namespace Module

/-- The members of a struct with their types. -/
def membersOf (s : Scope) (decl : StructDecl) : Except Error (List (String × Ty)) :=
  decl.members.mapM fun m => (s.resolveType m.2).map (m.1, ·)

/-- The struct `p` holds `q` by value. -/
def PendingStruct.Holds (p q : PendingStruct) : Prop :=
  ∃ m ∈ p.decl.members, m.2.byValueName? = some q.decl.name

/-- The room of a struct, which follows from that of the structs that it holds by value.  It may be
more than 32 bits can say. -/
inductive Takes (s : Scope) (structs : List PendingStruct) : PendingStruct → Room → Prop
  | intro {p : PendingStruct} {members : List (String × Ty)} (rooms : StructRef → Room)
      (resolved : membersOf s p.decl = .ok members)
      (held : ∀ q ∈ structs, p.Holds q → Takes s structs q (rooms q.ref)) :
      Takes s structs p (.ofMembers (members.map fun m => m.2.room rooms))

/-- One of the structs takes more bytes than 32 bits can say. -/
def Oversized (s : Scope) (structs : List PendingStruct) : Prop :=
  ∃ p ∈ structs, ∃ room, Takes s structs p room ∧ UInt32.size ≤ room.size

/-- The layout of a struct, which follows from those of the structs that it holds by value, if it
fits. -/
inductive Laid (s : Scope) (structs : List PendingStruct) : PendingStruct → Layout → Prop
  | intro {p : PendingStruct} {members : List (String × Ty)} {rooms : List Room}
      (layouts : StructRef → Layout) (resolved : membersOf s p.decl = .ok members)
      (held : ∀ q ∈ structs, p.Holds q → Laid s structs q (layouts q.ref))
      (sized : rooms = members.map fun m => m.2.room fun r => (layouts r).room)
      (fits : (Layout.ofRooms members rooms).room = .ofMembers rooms) :
      Laid s structs p (.ofRooms members rooms)

end Module

/-- A struct that has a layout takes the room of its layout. -/
theorem Module.Laid.takes {structs : List PendingStruct} {s : Scope} {p : PendingStruct}
    {l : Layout}
    (hl : Laid s structs p l) : Takes s structs p l.room := by
  induction hl with
  | intro layouts resolved _ sized fits ih =>
    rw [fits, sized]
    exact .intro (fun r => (layouts r).room) resolved ih

namespace Scope.Lists

variable {structs : List PendingStruct} {functions : List PendingFunction} {s : Scope}
  {p q : PendingStruct} {members : List (String × Ty)}

theorem find_struct (h : s.Lists structs functions) {name : String}
    (hp : structs.find? (·.decl.name = name) = some p) :
    p ∈ structs ∧ p.ref ∈ structs.map (·.ref) ∧ p.ref.name = name ∧
      name ∈ structs.map (·.decl.name) := by
  have mem := List.mem_of_find?_eq_some hp
  have hn : p.decl.name = name := by simpa using List.find?_some hp
  refine ⟨mem, List.mem_map_of_mem mem, (h.spelled p mem).trans hn, ?_⟩
  rw [← hn]
  exact List.mem_map_of_mem mem

/-- A struct is known by its number or its name. -/
theorem eq_of_ref (h : s.Lists structs functions) (hp : p ∈ structs) (hq : q ∈ structs)
    (he : q.ref.id = p.ref.id ∨ q.ref.name = p.ref.name) : q = p :=
  List.inj_on_of_nodup_map h.unique hq hp
    (h.reserving.distinct _ _ (List.mem_map_of_mem hq) (List.mem_map_of_mem hp) he)

theorem eq_of_name (h : s.Lists structs functions) (hp : p ∈ structs) (hq : q ∈ structs)
    (he : q.decl.name = p.decl.name) : q = p :=
  h.eq_of_ref hp hq (.inr (by rw [h.spelled q hq, h.spelled p hp, he]))

/-- A type annotation that means a struct names it without a pointer. -/
theorem byValueName (h : s.Lists structs functions) {r : StructRef} :
    ∀ {x : TypeExpr} {g : Flags}, s.resolveType x = .ok (.struct g r) →
      x.byValueName? = some r.name
  | .named _ name, g, hx => by
    rw [Scope.resolveType] at hx
    split at hx
    · next ht =>
      cases hx
      obtain ⟨f, hf, hb⟩ := Scope.mem_of_lookupType ht
      exact congrArg some (h.bound f hf _ hb g r rfl)
    · cases hx
  | .pointer _ x, g, hx => by
    obtain ⟨u, -, hu⟩ := map_eq_ok.mp hx
    cases hu
  | .mutable _ x, g, hx => by
    obtain ⟨u, hu, hr⟩ := map_eq_ok.mp hx
    cases u with
    | struct g' r' =>
      cases hr
      show x.byValueName? = some r.name
      exact h.byValueName hu
    | _ => cases hr

/-- The members of a struct are of types of the program. -/
theorem members_native (h : s.Lists structs functions) {decl : StructDecl}
    (hm : membersOf s decl = .ok members) : ∀ m ∈ members,
      m.2.Native (· ∈ structs.map (·.ref)) := by
  intro m hmem
  obtain ⟨x, -, hres⟩ := mem_of_mapM_eq_ok hm m hmem
  obtain ⟨u, hu, rfl⟩ := map_eq_ok.mp hres
  exact (h.reserving.native Builtin.void).resolveType hu

/-- A member whose type is a struct holds it by value. -/
theorem holds (h : s.Lists structs functions) (hm : membersOf s p.decl = .ok members)
    {m : String × Ty} (hmem : m ∈ members) {g : Flags} {r : StructRef} (hr : m.2 = .struct g r) :
    ∃ q ∈ structs, q.ref = r ∧ p.Holds q := by
  have native := h.members_native hm m hmem
  obtain ⟨x, hx, hres⟩ := mem_of_mapM_eq_ok hm m hmem
  obtain ⟨u, hu, rfl⟩ := map_eq_ok.mp hres
  obtain rfl : u = .struct g r := hr
  obtain ⟨q, hq, rfl⟩ := List.mem_map.mp native
  refine ⟨q, hq, rfl, x, hx, ?_⟩
  rw [h.byValueName hu, h.spelled q hq]

end Scope.Lists

theorem Scope.resolveType_withStructs (s : Scope) (t : Structs) (x : TypeExpr) :
    (s.withStructs t).resolveType x = s.resolveType x := by
  refine resolveType_congr ?_ x
  exact fun _ => rfl

namespace Module

variable {structs : List PendingStruct} {functions : List PendingFunction} {s : Scope}
  {p : PendingStruct} {t : Structs} {within : List String} {members : List (String × Ty)}
  {n : Nat} {m : String × TypeExpr} {L : Leeway}

/-- The rooms of members, where the structs they hold have their layouts. -/
theorem rooms_of_known (h : s.Lists structs functions) (hm : membersOf s p.decl = .ok members)
    {layouts : StructRef → Layout}
    (known : ∀ q ∈ structs, p.Holds q → t.layout? q.ref = some (layouts q.ref)) :
    List.Forall₂ (fun m r => t.room m.2 = .ok r) members
      (members.map fun m => m.2.room fun r => (layouts r).room) := by
  rw [List.forall₂_map_right_iff, List.forall₂_same]
  refine fun m hmem => Structs.room_eq fun g r hr => ?_
  obtain ⟨q, hq, rfl, hpq⟩ := h.holds hm hmem hr
  exact ⟨_, known q hq hpq, rfl⟩

/-! ### The steps of the pass -/

/-- A table while structs are being laid out: the layouts in it are right. -/
structure Laying (s : Scope) (structs : List PendingStruct) (t : Structs) : Prop where
  native : t.Native (· ∈ structs.map (·.ref))
  labels : t.entries.map StructEntry.label = s.structs.entries.map StructEntry.label
  laid : ∀ p ∈ structs, ∀ l, t.layout? p.ref = some l → Laid s structs p l

theorem Laying.length (h : Laying s structs t) : t.entries.length = s.structs.entries.length := by
  simpa using congrArg List.length h.labels

theorem Laying.start (h : s.Lists structs functions) : Laying s structs s.structs := by
  have none : ∀ r, s.structs.layout? r = none := by
    intro r
    rw [Structs.layout?, Structs.entry?]
    cases he : s.structs.entries[r.id]? with
    | none => rfl
    | some e => exact h.pending e (List.mem_of_getElem? he)
  refine ⟨fun r l hl => ?_, rfl, fun p _ l hl => ?_⟩
  · rw [none] at hl
    cases hl
  · rw [none] at hl
    cases hl

/-- Another layout that is right keeps the table right. -/
theorem Laying.withLayout (h : s.Lists structs functions) (ht : Laying s structs t)
    (hp : p ∈ structs) {l : Layout} (hl : Laid s structs p l)
    (native : ∀ m ∈ l.members, m.type.Native (· ∈ structs.map (·.ref))) :
    Laying s structs (t.withLayout p.ref l) := by
  refine ⟨fun x l' hl' => ?_, (t.labels_withLayout p.ref l).trans ht.labels, fun q hq l' hl' => ?_⟩
  · rw [Structs.withLayout, Structs.layout?_update] at hl'
    split at hl'
    · obtain ⟨e, -, he⟩ := Option.bind_eq_some_iff.mp hl'
      cases he
      exact native
    · exact ht.native x l' hl'
  · rw [Structs.withLayout, Structs.layout?_update] at hl'
    split at hl'
    · next hid =>
      obtain rfl := h.eq_of_ref hp hq (.inl hid)
      obtain ⟨e, -, he⟩ := Option.bind_eq_some_iff.mp hl'
      cases he
      exact hl
    · exact ht.laid q hq l' hl'

/-- Laying out one more struct from right layouts gives a right layout, if there is room for it. -/
theorem Laying.complete (h : s.Lists structs functions) (ht : Laying s structs t) (hp : p ∈ structs)
    (hnew : t.isReady p.ref = false) (hw : p.ref.name ∉ within)
    (hm : membersOf s p.decl = .ok members)
    (ready : ∀ q ∈ structs, p.Holds q → t.isReady q.ref = true) :
    (∃ t', t.complete p.ref members = .ok t' ∧ Laying s structs t' ∧
        Structs.Grows (· ∈ structs.map (·.ref)) within t t' ∧ t'.isReady p.ref = true) ∨
      ∃ f room, t.complete p.ref members = .error f ∧ f.IsOverflow ∧ Takes s structs p room ∧
        UInt32.size ≤ room.size := by
  have href := List.mem_map_of_mem (f := (·.ref)) hp
  let layouts : StructRef → Layout := fun r => (t.layout? r).getD ⟨[], 0, 0⟩
  have known : ∀ q ∈ structs, p.Holds q → t.layout? q.ref = some (layouts q.ref) := by
    intro q hq hpq
    obtain ⟨l, hl⟩ := Option.isSome_iff_exists.mp (ready q hq hpq)
    simp only [layouts, hl, Option.getD_some]
  have held : ∀ q ∈ structs, p.Holds q → Laid s structs q (layouts q.ref) := fun q hq hpq =>
    ht.laid q hq _ (known q hq hpq)
  rw [Structs.complete_eq_lay hnew]
  rcases Structs.lay_fits (rooms_of_known h hm known) with
    ⟨-, l, hl, same, fits, names⟩ | ⟨large, f, hf, he⟩
  · obtain rfl := same
    have native : ∀ m ∈ (Layout.ofRooms members _).members,
      m.type.Native (· ∈ structs.map (·.ref)) := fun m hmem =>
      h.members_native hm (m.name, m.type) (names ▸ List.mem_map_of_mem hmem)
    have hid : p.ref.id < t.entries.length := ht.length ▸ h.reserving.counted p.ref href
    refine .inl ⟨t.withLayout p.ref _, by rw [hl]; rfl,
      ht.withLayout h hp (.intro layouts hm held rfl fits) native,
      Structs.withLayout_grows h.reserving.distinct href hw _, ?_⟩
    rw [Structs.isReady, Structs.isReady_withLayout hid]
    rfl
  · refine .inr ⟨f, _, by rw [he]; rfl, hf, ?_, large⟩
    exact .intro (fun r => (layouts r).room) hm fun q hq hpq => (held q hq hpq).takes

/-- Lays out the struct that a member may hold by value. -/
def layHeld (structs : List PendingStruct) (n : Nat) (within : List String) (x : TypeExpr)
    (s : Scope) : Except Failure Scope :=
  match x.byValueName? with
  | some inner => completeStruct structs n within inner s
  | none => .ok s

/-- Adds a member, after the struct that it may hold by value. -/
def layMember (structs : List PendingStruct) (n : Nat) (within : List String)
    (x : List (String × Ty) × Scope) (m : String × TypeExpr) :
    Except Failure (List (String × Ty) × Scope) := do
  let s ← layHeld structs n within m.2 x.2
  let t ← Failure.ofError (s.resolveType m.2)
  return (x.1 ++ [(m.1, t)], s)

/-- One step of the pass. -/
theorem completeStruct_succ (n : Nat) (within : List String) (name : String) (s : Scope) :
    completeStruct structs (n + 1) within name s =
      match structs.find? (·.decl.name = name) with
      | none => .ok s
      | some p =>
        if s.structs.isReady p.ref then .ok s
        else if name ∈ within then .error (.error ⟨.incompleteType name, p.decl.span.start⟩)
        else p.decl.members.foldlM (layMember structs n (name :: within)) ([], s) >>= fun r =>
          Failure.ofFault (r.2.completeStruct (.struct .none p.ref) r.1) := by
  have step : layMember structs n (name :: within) = fun x m => do
      let s ← match m.2.byValueName? with
        | some inner => completeStruct structs n (name :: within) inner x.2
        | none => pure x.2
      let t ← Failure.ofError (s.resolveType m.2)
      return (x.1 ++ [(m.1, t)], s) := by
    funext x m
    rw [layMember, layHeld]
    cases m.2.byValueName? <;> rfl
  rewrite [completeStruct, step]
  rfl

/-- All members of `p` but the last ones are resolved, and what they hold by value is laid out. -/
structure Filling (s : Scope) (structs : List PendingStruct) (p : PendingStruct)
    (left : List (String × TypeExpr)) (members : List (String × Ty)) (t : Structs) : Prop
    extends Laying s structs t where
  resolved : ∃ done, p.decl.members = done ++ left ∧
    (done.mapM fun m => (s.resolveType m.2).map (m.1, ·)) = .ok members ∧
    ∀ q ∈ structs, (∃ m ∈ done, m.2.byValueName? = some q.decl.name) → t.isReady q.ref = true

/-- A member more is laid out. -/
theorem Filling.next {left : List (String × TypeExpr)} {t t' : Structs} {u : Ty}
    (h : Filling s structs p (m :: left) members t) (ht : Laying s structs t')
    (grows : Structs.Grows (· ∈ structs.map (·.ref)) within t t') (hu : s.resolveType m.2 = .ok u)
    (ready : ∀ q ∈ structs, m.2.byValueName? = some q.decl.name → t'.isReady q.ref = true) :
    Filling s structs p left (members ++ [(m.1, u)]) t' := by
  obtain ⟨done, hdone, hm, before⟩ := h.resolved
  refine ⟨ht, done ++ [m], ?_, ?_, ?_⟩
  · rw [hdone, List.append_assoc]
    rfl
  · rw [List.mapM_append, hm, ok_bind, List.mapM_cons, hu]
    rfl
  · rintro q hq ⟨m', hm', hname⟩
    rcases List.mem_append.mp hm' with hm' | hm'
    · exact grows.ready q.ref (before q hq ⟨m', hm', hname⟩)
    · obtain rfl := List.mem_singleton.mp hm'
      exact ready q hq hname

/-! ### The pass -/

/-- What laying out a struct comes to. -/
def Completed (s : Scope) (structs : List PendingStruct) (within : List String) (name : String)
    (t : Structs) (s' : Scope) : Prop :=
  ∃ t', s' = s.withStructs t' ∧ Laying s structs t' ∧
    Structs.Grows (· ∈ structs.map (·.ref)) within t t' ∧
    ∀ q ∈ structs, q.decl.name = name → t'.isReady q.ref = true

/-- A member is added once the struct that it may hold by value is laid out. -/
theorem layMember_safe {left : List (String × TypeExpr)} {t₀ : Structs}
    (held : ∀ inner t, Laying s structs t → Failure.Safe L (Completed s structs within inner t)
      (completeStruct structs n within inner (s.withStructs t)))
    (grows : Structs.Grows (· ∈ structs.map (·.ref)) within t₀ t)
    (filling : Filling s structs p (m :: left) members t) (place : m.2.extent.Placed L) :
    Failure.Safe L (fun x => ∃ t', x.2 = s.withStructs t' ∧
        Structs.Grows (· ∈ structs.map (·.ref)) within t₀ t' ∧ Filling s structs p left x.1 t')
      (layMember structs n within (members, s.withStructs t) m) := by
  have first : Failure.Safe L (fun s' => ∃ t', s' = s.withStructs t' ∧ Laying s structs t' ∧
      Structs.Grows (· ∈ structs.map (·.ref)) within t t' ∧
      ∀ q ∈ structs, m.2.byValueName? = some q.decl.name → t'.isReady q.ref = true)
      (layHeld structs n within m.2 (s.withStructs t)) := by
    unfold layHeld
    split
    · next inner hinner =>
      refine (held inner t filling.toLaying).mono ?_
      rintro _ ⟨t', rfl, laying, grows, ready⟩
      refine ⟨t', rfl, laying, grows, fun q hq hname => ready q hq ?_⟩
      exact Option.some.inj (hname.symm.trans hinner)
    · next hinner =>
      refine ⟨t, rfl, filling.toLaying, .refl, fun q _ hname => ?_⟩
      cases hinner.symm.trans hname
  refine first.bind ?_
  rintro _ ⟨t', rfl, laying, grows', ready⟩
  rw [s.resolveType_withStructs]
  refine (Failure.safe_ofError (fun u hu => hu)
    fun _ => Scope.resolveType_plain place).bind fun u hu => ?_
  exact ⟨t', rfl, grows.trans grows', filling.next laying grows' hu ready⟩

section Pass

variable (h : s.Lists structs functions) (placed : ∀ p ∈ structs, p.decl.extent.Placed L)
  (large : Oversized s structs → L.oversized)

include h placed large

/-- By induction on the depth that is left: the structs `within` are different ones, so some depth
is left as long as not all structs are among them. -/
theorem completeStruct_safe (n : Nat) (within : List String) (name : String) (t : Structs)
    (ht : Laying s structs t) (distinct : within.Nodup)
    (among : within ⊆ structs.map (·.decl.name)) (depth : n + within.length = structs.length + 1) :
    Failure.Safe L (Completed s structs within name t)
      (completeStruct structs n within name (s.withStructs t)) := by
  induction n generalizing within name t with
  | zero =>
    have := (List.subperm_of_subset distinct among).length_le
    rw [List.length_map] at this
    omega
  | succ n ih =>
    rw [completeStruct_succ]
    split
    · next hfind =>
      refine ⟨t, rfl, ht, .refl, fun q hq hname => ?_⟩
      have := List.find?_eq_none.mp hfind q hq
      exact absurd hname (by simpa using this)
    · next p hfind =>
      obtain ⟨hp, href, hpn, hmem⟩ := h.find_struct hfind
      have named : ∀ q ∈ structs, q.decl.name = name → q = p := fun q hq hname =>
        h.eq_of_name hp hq (hname.trans (hpn.symm.trans (h.spelled p hp)))
      split
      · next hready =>
        refine ⟨t, rfl, ht, .refl, fun q hq hname => ?_⟩
        rw [named q hq hname]
        exact hready
      · next hready =>
        split
        · exact ⟨rfl, (placed p hp).1⟩
        · next hnot =>
          have types : ∀ m ∈ p.decl.members, m.2.extent.Placed L := fun m hm =>
            Extent.placedAll_iff.mp (placed p hp).2 _ (List.mem_map_of_mem hm)
          have held := fun inner t ht => ih (name :: within) inner t ht
            (List.nodup_cons.mpr ⟨hnot, distinct⟩) (List.cons_subset.mpr ⟨hmem, among⟩)
            (by rw [List.length_cons]; omega)
          refine (Failure.ends_foldlM (I := fun left x => (∀ m ∈ left, m.2.extent.Placed L) ∧
            ∃ t', x.2 = s.withStructs t' ∧
              Structs.Grows (· ∈ structs.map (·.ref)) (name :: within) t t' ∧
              Filling s structs p left x.1 t') ?_
            ⟨types, t, rfl, .refl, ht, [], rfl, rfl, by simp⟩).bind ?_
          · rintro ⟨members, _⟩ m left ⟨types, t₁, rfl, grows, filling⟩
            obtain ⟨type, types⟩ := List.forall_mem_cons.mp types
            exact (layMember_safe held grows filling type).mono fun x hx => ⟨types, hx⟩
          · rintro ⟨members, _⟩ ⟨-, t₁, rfl, grows, filled⟩
            obtain ⟨done, hdone, hm, ready⟩ := filled.resolved
            rw [List.append_nil] at hdone
            rw [← hdone] at hm ready
            have hnew : t₁.isReady p.ref = false := by
              rw [Structs.isReady, grows.kept p.ref href (hpn ▸ (.head _))]
              exact Bool.not_eq_true _ ▸ hready
            show Failure.Safe L _ (Failure.ofFault ((t₁.complete p.ref members).map _))
            rcases filled.toLaying.complete h hp hnew (hpn ▸ hnot) hm ready with
              ⟨t₂, hc, laying, grows₂, ready₂⟩ | ⟨f, room, hc, hf, takes, hlarge⟩
            · rw [hc]
              refine ⟨t₂, rfl, laying, grows.mono.trans grows₂, fun q hq hname => ?_⟩
              rw [named q hq hname]
              exact ready₂
            · rw [hc]
              exact .inr ⟨hf, large ⟨p, hp, room, takes, hlarge⟩⟩

/-- All structs are laid out, each once, unless one holds itself or does not fit; only the table
changes. -/
theorem completeStructs_safe :
    Failure.Safe L (fun s' => ∃ t, s' = s.withStructs t ∧ Laying s structs t ∧
        ∀ p ∈ structs, t.isReady p.ref = true) (completeStructs structs s) := by
  refine (Failure.ends_foldlM (I := fun left s' => ∃ t, s' = s.withStructs t ∧
    Laying s structs t ∧ ∀ p ∈ structs, p ∈ left ∨ t.isReady p.ref = true) ?_
    ⟨s.structs, rfl, .start h, fun p hp => .inl hp⟩).mono ?_
  · rintro _ p left ⟨t, rfl, ht, ready⟩
    refine (completeStruct_safe h placed large _ [] p.decl.name t ht List.nodup_nil
      (List.nil_subset _) rfl).mono ?_
    rintro _ ⟨t', rfl, laying, grows, now⟩
    refine ⟨t', rfl, laying, fun q hq => ?_⟩
    rcases ready q hq with hleft | hready
    · rcases List.mem_cons.mp hleft with rfl | hleft
      · exact .inr (now q hq rfl)
      · exact .inl hleft
    · exact .inr (grows.ready q.ref hready)
  · rintro _ ⟨t, rfl, ht, ready⟩
    exact ⟨t, rfl, ht, fun p hp => (ready p hp).resolve_left List.not_mem_nil⟩

end Pass

/-- After the pass every struct has its layout. -/
theorem completeStructs_laid (h : s.Lists structs functions)
    (hs : completeStructs structs s = .ok (s.withStructs t)) :
    Laying s structs t ∧ ∀ p ∈ structs, t.isReady p.ref = true := by
  have safe := completeStructs_safe h (fun _ _ => Extent.placed_all _) fun _ => trivial
  rw [hs] at safe
  obtain ⟨t', heq, laying, ready⟩ := safe
  obtain rfl : t = t' := congrArg Scope.structs heq
  exact ⟨laying, ready⟩

end Module

end Gauge
