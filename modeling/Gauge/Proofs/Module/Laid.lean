import Mathlib.Data.List.Nodup
import Mathlib.Logic.Relation
import Gauge.Proofs.Module.Structs
import Gauge.Proofs.Typed.Rename

/-!
# Proofs — layouts that do not depend on the order

`Module.Laid` says what the layout of a struct is, given its members and the layouts of the structs
that it holds by value.  No order of the structs is in it; but since it is inductive, a struct that
has a layout does not hold itself.  The pass over the structs gives every struct this layout
(`Module.completeStructs_laid`), and it succeeds if every struct has one
(`Module.completeStructs_defined`).  So the layouts are the same under other numbers
(`Module.Laid.rename`), which the structs have when they are declared in another order.
-/

namespace Gauge

open Module

namespace Module

variable {structs : List PendingStruct} {functions : List PendingFunction} {s : Scope}
  {p : PendingStruct} {t : Structs} {within : List String} {members : List (String × Ty)} {n : Nat}
  {m : String × TypeExpr} {e : Error} {l : Layout}

/-- A struct has one layout only. -/
theorem Laid.unique (h : s.Lists structs functions) {l' : Layout} (hl : Laid s structs p l)
    (hl' : Laid s structs p l') : l = l' := by
  induction hl generalizing l' with
  | @intro p members rooms layouts resolved _ sized _ ih =>
    cases hl' with
    | @intro _ _ _ layouts' resolved' held' sized' _ =>
      cases resolved.symm.trans resolved'
      rw [sized, sized']
      refine congrArg (Layout.ofRooms members) (List.map_congr_left fun m hm => ?_)
      refine Ty.room_congr fun g r hr => ?_
      obtain ⟨q, hq, rfl, hpq⟩ := h.holds resolved hm hr
      rw [ih q hq hpq (held' q hq hpq)]

/-- A struct takes one room only. -/
theorem Takes.unique (h : s.Lists structs functions) {room room' : Room}
    (hr : Takes s structs p room) (hr' : Takes s structs p room') : room = room' := by
  induction hr generalizing room' with
  | @intro p members rooms resolved held ih =>
    cases hr' with
    | @intro _ _ rooms' resolved' held' =>
      cases resolved.symm.trans resolved'
      refine congrArg Room.ofMembers (List.map_congr_left fun m hm => ?_)
      refine Ty.room_congr fun g r hr => ?_
      obtain ⟨q, hq, rfl, hpq⟩ := h.holds resolved hm hr
      exact ih q hq hpq (held' q hq hpq)

/-- What has a layout has room. -/
theorem Laid.fits (h : s.Lists structs functions) {room : Room} (hl : Laid s structs p l)
    (hr : Takes s structs p room) : room.size < UInt32.size := by
  rw [hr.unique h hl.takes]
  exact l.size.toNat_lt

/-- The struct `q`, one of `structs`, is held by `p`. -/
def Inside (structs : List PendingStruct) (q p : PendingStruct) : Prop := q ∈ structs ∧ p.Holds q

/-- A struct with a layout does not hold itself, not even through others. -/
theorem Laid.not_inside_self (h : Laid s structs p l) :
    ¬ Relation.TransGen (Inside structs) p p := by
  have acc : Acc (Inside structs) p := by
    induction h with
    | intro layouts resolved held sized fits ih => exact ⟨_, fun q hq => ih q hq.1 hq.2⟩
  have irrefl : ∀ {q : PendingStruct}, Acc (Relation.TransGen (Inside structs)) q →
      ¬ Relation.TransGen (Inside structs) q q := by
    intro q hq
    induction hq with
    | intro q _ ih => exact fun hself => ih q hself hself
  exact irrefl acc.transGen

theorem layHeld_withStructs {x : TypeExpr} {s' : Scope}
    (h : layHeld structs n within x (s.withStructs t) = .ok s') : ∃ t', s' = s.withStructs t' := by
  unfold layHeld at h
  split at h
  · obtain ⟨t', rfl⟩ := completeStruct_withStructs h
    exact ⟨t', rfl⟩
  · cases h
    exact ⟨t, rfl⟩

theorem layMember_eq_ok {x : List (String × Ty) × Scope}
    (hx : layMember structs n within (members, s.withStructs t) m = .ok x) :
    ∃ t' u, layHeld structs n within m.2 (s.withStructs t) = .ok (s.withStructs t') ∧
      s.resolveType m.2 = .ok u ∧ x = (members ++ [(m.1, u)], s.withStructs t') := by
  obtain ⟨s₁, h₁, hx⟩ := bind_eq_ok.mp hx
  obtain ⟨u, hu, hx⟩ := bind_eq_ok.mp hx
  obtain ⟨t', rfl⟩ := layHeld_withStructs h₁
  cases hx
  rw [s.resolveType_withStructs] at hu
  exact ⟨t', u, h₁, Failure.ofError_eq_ok.mp hu, rfl⟩

/-! ### The pass succeeds if every struct has a layout -/

theorem Laid.resolves (h : Laid s structs p l) (hm : m ∈ p.decl.members) :
    s.resolveType m.2 ≠ .error e := by
  intro he
  cases h with
  | intro layouts resolved held sized fits =>
    obtain ⟨u, -, hu⟩ := forall_mem_of_mapM_eq_ok resolved m hm
    rw [he] at hu
    cases hu

/-- A member is refused for its type, or for the struct that it holds by value. -/
theorem layMember_eq_error
    (hs : layMember structs n within (members, s.withStructs t) m = .error (.error e)) :
    s.resolveType m.2 = .error e ∨ ∃ inner, m.2.byValueName? = some inner ∧
      completeStruct structs n within inner (s.withStructs t) = .error (.error e) := by
  rcases bind_eq_error.mp hs with hs | ⟨s₁, hheld, hs⟩
  · unfold layHeld at hs
    split at hs
    · next inner hinner => exact .inr ⟨inner, hinner, hs⟩
    · cases hs
  · obtain ⟨t', rfl⟩ := layHeld_withStructs hheld
    rcases bind_eq_error.mp hs with hs | ⟨u, -, hs⟩
    · rw [s.resolveType_withStructs] at hs
      cases hr : s.resolveType m.2 with
      | error e' =>
        rw [hr] at hs
        cases hs
        exact .inl rfl
      | ok u =>
        rw [hr] at hs
        cases hs
    · cases hs

/-- What is wrong with a program whose structs cannot be laid out: a member's type, or a struct that
holds itself. -/
def Refused (s : Scope) (structs : List PendingStruct) (e : Error) : Prop :=
  (∃ p ∈ structs, ∃ m ∈ p.decl.members, s.resolveType m.2 = .error e) ∨
    ∃ p ∈ structs, Relation.TransGen (Inside structs) p p ∧
      e = ⟨.incompleteType p.decl.name, p.decl.span.start⟩

/-- The structs `within` hold the one that is to be laid out; so if it is among them, it holds
itself. -/
theorem completeStruct_refused (h : s.Lists structs functions) :
    ∀ {n : Nat} {within : List String} {name : String} {t : Structs},
      (∀ w ∈ within, ∃ p ∈ structs, p.decl.name = w ∧
        ∀ q ∈ structs, q.decl.name = name → Relation.TransGen (Inside structs) q p) →
      completeStruct structs n within name (s.withStructs t) = .error (.error e) →
      Refused s structs e := by
  intro n
  induction n with
  | zero =>
    intro within name t _ hs
    cases hs
  | succ n ih =>
    intro within name t around hs
    rw [completeStruct_succ] at hs
    split at hs
    · cases hs
    · next p hfind =>
      have hp := List.mem_of_find?_eq_some hfind
      have hname : p.decl.name = name := by simpa using List.find?_some hfind
      split at hs
      · cases hs
      · split at hs
        · next hmem =>
          cases hs
          obtain ⟨q, hq, hqn, inside⟩ := around name hmem
          obtain rfl := h.eq_of_name hp hq (hqn.trans hname.symm)
          exact .inr ⟨q, hq, inside q hq hname, by rw [hname]⟩
        · rcases bind_eq_error.mp hs with hs | ⟨x, -, hs⟩
          · have step : ∀ (x : List (String × Ty) × Scope) (m : String × TypeExpr)
                (x' : List (String × Ty) × Scope), (∃ t, x.2 = s.withStructs t) →
                layMember structs n (name :: within) x m = .ok x' → ∃ t,
                  x'.2 = s.withStructs t := by
              rintro ⟨ms, _⟩ m x' ⟨t₁, rfl⟩ hx
              obtain ⟨t₂, u, -, -, rfl⟩ := layMember_eq_ok hx
              exact ⟨t₂, rfl⟩
            obtain ⟨⟨ms, _⟩, m, ⟨t₁, rfl⟩, hm, hs⟩ := foldlM_eq_error step ⟨t, rfl⟩ hs
            rcases layMember_eq_error hs with hs | ⟨inner, hinner, hs⟩
            · exact .inl ⟨p, hp, m, hm, hs⟩
            · refine ih (fun w hw => ?_) hs
              -- `p` and all structs around it hold the struct that the member holds
              have held : ∀ q ∈ structs, q.decl.name = inner → Inside structs q p :=
                fun q hq hqn => ⟨hq, m, hm, by rw [hinner, hqn]⟩
              rcases List.mem_cons.mp hw with rfl | hw
              · exact ⟨p, hp, hname, fun q hq hqn => .single (held q hq hqn)⟩
              · obtain ⟨p', hp', hpn, inside⟩ := around w hw
                exact ⟨p', hp', hpn, fun q hq hqn => .head (held q hq hqn) (inside p hp hname)⟩
          · cases hc : x.2.completeStruct (.struct .none p.ref) x.1 <;> rw [hc] at hs <;> cases hs

theorem completeStructs_refused (h : s.Lists structs functions)
    (hs : completeStructs structs s = .error (.error e)) : Refused s structs e := by
  have step : ∀ (s₁ : Scope) (p : PendingStruct) (s₂ : Scope), (∃ t, s₁ = s.withStructs t) →
      completeStruct structs (structs.length + 1) [] p.decl.name s₁ = .ok s₂ →
      ∃ t, s₂ = s.withStructs t := by
    rintro _ p s₂ ⟨t, rfl⟩ hstep
    obtain ⟨t', rfl⟩ := completeStruct_withStructs hstep
    exact ⟨t', rfl⟩
  obtain ⟨_, p, ⟨t, rfl⟩, -, he⟩ := foldlM_eq_error step ⟨s.structs, rfl⟩ hs
  exact completeStruct_refused h (fun w hw => absurd hw List.not_mem_nil) he

/-- The pass ends with a table, with an error, or at a struct that does not fit. -/
theorem completeStructs_ends (h : s.Lists structs functions) :
    (∃ t, completeStructs structs s = .ok (s.withStructs t)) ∨
      (∃ e, completeStructs structs s = .error (.error e)) ∨
      ∃ f, completeStructs structs s = .error (.fault f) ∧ f.IsOverflow ∧ Oversized s structs := by
  let L : Leeway := ⟨fun _ => True, False, Oversized s structs⟩
  have safe := completeStructs_safe (L := L) h (fun p _ => p.decl.placed fun _ => trivial) id
  cases hs : completeStructs structs s with
  | ok s' =>
    obtain ⟨t, rfl⟩ := completeStructs_withStructs hs
    exact .inl ⟨t, rfl⟩
  | error f =>
    rw [hs] at safe
    cases f with
    | error e => exact .inr (.inl ⟨e, rfl⟩)
    | fault f =>
      obtain ⟨-, untyped⟩ | ⟨overflow, large⟩ := safe
      · exact untyped.elim
      · exact .inr (.inr ⟨f, rfl, overflow, large⟩)

/-- The pass succeeds if every struct has a layout. -/
theorem completeStructs_defined (h : s.Lists structs functions)
    (laid : ∀ p ∈ structs, ∃ l, Laid s structs p l) :
    ∃ t, completeStructs structs s = .ok (s.withStructs t) := by
  rcases completeStructs_ends h with done | ⟨e, he⟩ | ⟨f, -, -, p, hp, room, takes, large⟩
  · exact done
  · rcases completeStructs_refused h he with ⟨p, hp, m, hm, he⟩ | ⟨p, hp, inside, -⟩
    · obtain ⟨l, hl⟩ := laid p hp
      exact absurd he (hl.resolves hm)
    · obtain ⟨l, hl⟩ := laid p hp
      exact absurd inside hl.not_inside_self
  · obtain ⟨l, hl⟩ := laid p hp
    exact absurd (hl.fits h takes) (Nat.not_lt.mpr large)

end Module

/-! ### Layouts under other numbers -/

section Rename

variable (ρ : Renaming)

def Module.PendingStruct.rename (p : PendingStruct) : PendingStruct := ⟨p.ref.rename ρ, p.decl⟩

variable {ρ}

theorem Room.place_rename (offset : Nat) (ms : List (String × Ty)) (rs : List Room) :
    place offset (ms.map (Prod.map id (Ty.rename ρ))) rs =
      (place offset ms rs).map (Member.rename ρ) := by
  induction ms generalizing offset rs with
  | nil => rfl
  | cons m ms ih =>
    cases rs with
    | nil => rfl
    | cons r rs =>
      obtain ⟨name, type⟩ := m
      simp only [List.map_cons, Prod.map, place, ih]
      rfl

theorem Layout.ofRooms_rename (ms : List (String × Ty)) (rs : List Room) :
    ofRooms (ms.map (Prod.map id (Ty.rename ρ))) rs = (ofRooms ms rs).rename ρ := by
  rw [ofRooms, ofRooms, Room.place_rename]
  rfl

theorem Ty.room_rename {rooms rooms' : StructRef → Room}
    (h : ∀ r : StructRef, rooms' (r.rename ρ) = rooms r) (t : Ty) :
    (t.rename ρ).room rooms' = t.room rooms := by
  cases t with
  | struct g r => exact h r
  | _ => rfl

namespace Module

variable {s s' : Scope} {structs structs' : List PendingStruct}

theorem membersOf_rename (types : ∀ name, s'.lookupType name =
    (s.lookupType name).map (Ty.rename ρ))
    {decl : StructDecl} {members : List (String × Ty)} (h : membersOf s decl = .ok members) :
    membersOf s' decl = .ok (members.map (Prod.map id (Ty.rename ρ))) := by
  rw [membersOf, ← List.map_id decl.members]
  refine mapM_map_eq_ok (fun m x hm => ?_) h
  obtain ⟨u, hu, rfl⟩ := map_eq_ok.mp hm
  rw [id_eq, Scope.resolveType_rename types, hu]
  rfl

/-- A struct is laid out in the same way under the other numbers. -/
theorem Laid.rename (types : ∀ name, s'.lookupType name = (s.lookupType name).map (Ty.rename ρ))
    (back : ∀ q' ∈ structs', ∃ q ∈ structs, q' = q.rename ρ) {p : PendingStruct} {l : Layout}
    (h : Laid s structs p l) : Laid s' structs' (p.rename ρ) (l.rename ρ) := by
  induction h with
  | @intro p members rooms layouts resolved held sized fits ih =>
    let layouts' : StructRef → Layout := fun r => (layouts ⟨ρ.struct.symm r.id, r.name⟩).rename ρ
    have images : ∀ r : StructRef, layouts' (r.rename ρ) = (layouts r).rename ρ := by
      intro r
      simp only [layouts', StructRef.rename, Equiv.symm_apply_apply]
    rw [← Layout.ofRooms_rename]
    refine .intro layouts' (membersOf_rename types resolved) (fun q' hq' hheld => ?_) ?_ ?_
    · obtain ⟨q, hq, rfl⟩ := back q' hq'
      rw [show layouts' (q.rename ρ).ref = (layouts q.ref).rename ρ from images q.ref]
      exact ih q hq hheld
    · rw [sized, List.map_map]
      refine List.map_congr_left fun m _ => (Ty.room_rename (fun r => ?_) m.2).symm
      rw [images]
      rfl
    · rw [Layout.ofRooms_rename]
      exact fits

end Module

end Rename

end Gauge
