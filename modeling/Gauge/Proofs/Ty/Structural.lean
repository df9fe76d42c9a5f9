import Mathlib.Data.List.Forall2
import Mathlib.Data.List.Perm.Subperm
import Gauge.Proofs.Ty.Form

/-!
# Proofs — when two structs are the same

The fingerprint of a struct is a walk through its members, written down without brackets.  Structs
with the same members have the same fingerprint, so they are equal; the converse holds as long as no
function type stands inside another (`Structs.compare_structural`).  The walk shows where a scalar,
a pointer and a struct end, but not how many parameters a function has: a parameter behind a
function inside a function may belong to either.
-/

namespace Gauge

/-! ### Finite types -/

/-- The type unfolds to a finite tree, with at most `n` function types inside one another: all
structs in it have their members, and a fingerprint kept for one is that of the members it has. -/
inductive Structs.Settled (s : Structs) : Nat → Ty → Prop where
  | scalar {n : Nat} {f : Flags} {c : Scalar} : Settled s n (.scalar f c)
  | pointer {n : Nat} {f : Flags} {stamp : Stamp} {p : Ty} :
      Settled s n p → Settled s n (.pointer f stamp p)
  | function {n : Nat} {f : Flags} {stamp : Stamp} {name : Option String} {r : Ty} {ps : List Ty} :
      Settled s n r → (∀ p ∈ ps, Settled s n p) → Settled s (n + 1) (.function f stamp name r ps)
  | struct {n : Nat} {f : Flags} {r : StructRef} {l : Layout} {kept : Option (List Mark)} :
      s.entry? r = some ⟨r.name, some l, kept⟩ →
      (∀ marks ∈ kept, s.structMarks (s.entries.length + 1) [] r = .ok marks) →
      (∀ m ∈ l.members, Settled s n m.type) → Settled s n (.struct f r)

/-- A struct stands in the type, or in a member of a struct that does. -/
inductive Structs.Reaches (s : Structs) : Ty → Nat → Prop where
  | struct {f : Flags} {r : StructRef} : Reaches s (.struct f r) r.id
  | pointer {f : Flags} {stamp : Stamp} {p : Ty} {i : Nat} :
      Reaches s p i → Reaches s (.pointer f stamp p) i
  | result {f : Flags} {stamp : Stamp} {name : Option String} {r : Ty} {ps : List Ty} {i : Nat} :
      Reaches s r i → Reaches s (.function f stamp name r ps) i
  | parameter {f : Flags} {stamp : Stamp} {name : Option String} {r p : Ty} {ps : List Ty}
      {i : Nat} :
      p ∈ ps → Reaches s p i → Reaches s (.function f stamp name r ps) i
  | member {f : Flags} {r : StructRef} {l : Layout} {m : Member} {i : Nat} :
      s.layout? r = some l → m ∈ l.members → Reaches s m.type i → Reaches s (.struct f r) i

namespace Structs

variable {s : Structs} {n k : Nat} {t u : Ty} {r : StructRef} {outer : List Nat} {x y : List Mark}
  {l : Layout}

theorem layout?_of_entry {kept : Option (List Mark)}
    (h : s.entry? r = some ⟨r.name, some l, kept⟩) : s.layout? r = some l := by
  rw [layout?, h]
  rfl

/-- No struct in a finite type reaches itself. -/
theorem Settled.acyclic (h : s.Settled n t) {m : Member} (hr : s.Reaches t r.id)
    (hl : s.layout? r = some l) (hm : m ∈ l.members) : ¬ s.Reaches m.type r.id := by
  induction h with
  | scalar => cases hr
  | pointer _ ih =>
    cases hr with
    | pointer hr => exact ih hr
  | function _ _ ih ihs =>
    cases hr with
    | result hr => exact ih hr
    | parameter hp hr => exact ihs _ hp hr
  | @struct _ _ r' l' _ he _ _ ih =>
    have hl' := layout?_of_entry he
    generalize hi : r.id = i at hr
    cases hr with
    | struct =>
      -- a way back to the struct starts in a member, of which the claim is known
      have same : s.layout? r = s.layout? r' := by rw [layout?, layout?, entry?, entry?, hi]
      cases hl.symm.trans (same.trans hl')
      intro back
      rw [← hi] at back
      exact ih m hm back back
    | member hl'' hm' hr =>
      cases hl'.symm.trans hl''
      subst hi
      exact ih _ hm' hr

theorem Settled.acyclic_self {f : Flags} {kept : Option (List Mark)} (h : s.Settled n (.struct f r))
    (he : s.entry? r = some ⟨r.name, some l, kept⟩) : ∀ m ∈ l.members, ¬ s.Reaches m.type r.id :=
  fun _ hm => h.acyclic .struct (layout?_of_entry he) hm

/-- The walk may go through the type: the structs around it are `outer`, none of which is met again,
and there is depth left for all others. -/
structure Walkable (s : Structs) (k : Nat) (outer : List Nat) (t : Ty) : Prop where
  depth : s.entries.length < k + outer.length
  nodup : outer.Nodup
  known : ∀ i ∈ outer, i < s.entries.length
  apart : ∀ i ∈ outer, ¬ s.Reaches t i

theorem walkable_top (s : Structs) (t : Ty) : s.Walkable (s.entries.length + 1) [] t :=
  ⟨by simp, .nil, by simp, by simp⟩

end Structs

theorem Ty.allOver_of_forall {R : StructRef → Prop} {ps : List Ty}
    (h : ∀ p ∈ ps, p.Over R) : Ty.AllOver R ps := by
  induction ps with
  | nil => trivial
  | cons p ps ih => exact ⟨h p (.head _), ih fun q hq => h q (.tail _ hq)⟩

/-! ### The marks of a form -/

mutual

def Form.marks : Form → List Mark
  | .scalar f k n a => [.flags f, .shape 0, .kind k, .number n.toNat, .number a.toNat]
  | .pointer f p => .flags f :: .shape 2 :: p.marks
  | .function f r ps => .flags f :: .shape 1 :: (r.marks ++ Form.marksAll ps)
  | .struct f _ ms => .flags f :: .shape 3 :: ms.toOption.getD []

def Form.marksAll : List Form → List Mark
  | [] => []
  | t :: ts => t.marks ++ Form.marksAll ts

end

namespace Structs

variable {s : Structs} {n k : Nat} {t u : Ty} {r : StructRef} {outer : List Nat} {x y : List Mark}
  {ms ns : List Member}

/-- The marks of the members of a struct. -/
def memberMarks (s : Structs) (ms : List Member) : List Mark :=
  ms.flatMap fun m => .text m.name :: (s.form m.type).marks

theorem mapM_eq_ok_map {α β ε : Type} {f : α → Except ε β} {g : α → β} {l : List α}
    (h : ∀ a ∈ l, f a = .ok (g a)) : l.mapM f = .ok (l.map g) := by
  rw [mapM_eq_ok_iff, List.forall₂_map_right_iff, List.forall₂_same]
  exact h

theorem marksAll_eq {structMarks : StructRef → Except Fault (List Mark)} {ps : List Ty}
    (h : ∀ p ∈ ps, p.marks structMarks = .ok (s.form p).marks) :
    Ty.marksAll structMarks ps = .ok (Form.marksAll (s.forms ps)) := by
  induction ps with
  | nil => rfl
  | cons p ps ih =>
    obtain ⟨hp, hps⟩ := List.forall_mem_cons.mp h
    rw [Ty.marksAll, hp, ok_bind, ih hps]
    rfl

theorem fingerprint_eq {l : Layout} {kept : Option (List Mark)}
    (he : s.entry? r = some ⟨r.name, some l, kept⟩)
    (current : ∀ marks ∈ kept, s.structMarks (s.entries.length + 1) [] r = .ok marks) :
    s.fingerprint r = s.structMarks (s.entries.length + 1) [] r := by
  rw [fingerprint, he]
  cases kept with
  | none => rfl
  | some marks => exact (current marks rfl).symm

/-- The marks of a struct whose members are marked alike everywhere. -/
theorem structMarks_eq {f : Flags} {l : Layout} {kept : Option (List Mark)}
    (he : s.entry? r = some ⟨r.name, some l, kept⟩)
    (acyclic : ∀ m ∈ l.members, ¬ s.Reaches m.type r.id)
    (marks : ∀ m ∈ l.members, ∀ {k : Nat} {outer : List Nat}, s.Walkable k outer m.type →
      m.type.marks (s.structMarks k outer) = .ok (s.form m.type).marks)
    (hw : s.Walkable k outer (.struct f r)) : s.structMarks k outer r =
      .ok (.text r.name :: .number l.members.length :: s.memberMarks l.members) := by
  have hl := layout?_of_entry he
  have hid : r.id < s.entries.length := (List.getElem?_eq_some_iff.mp he).1
  have depth := hw.depth
  have new : r.id ∉ outer := fun hi => hw.apart _ hi .struct
  have nodup : (r.id :: outer).Nodup := List.nodup_cons.mpr ⟨new, hw.nodup⟩
  have known : ∀ i ∈ r.id :: outer, i < s.entries.length :=
    List.forall_mem_cons.mpr ⟨hid, hw.known⟩
  have room : outer.length + 1 ≤ s.entries.length := by
    have := (nodup.subperm fun i hi => List.mem_range.mpr (known i hi)).length_le
    rwa [List.length_cons, List.length_range] at this
  have first : outer.findIdx? (· = r.id) = none :=
    List.findIdx?_eq_none_iff.mpr fun i hi => decide_eq_false fun h => new (h ▸ hi)
  cases k with
  | zero => omega
  | succ k =>
    have inner : ∀ m ∈ l.members, s.Walkable k (r.id :: outer) m.type := fun m hm =>
      ⟨by rw [List.length_cons]; omega, nodup, known, List.forall_mem_cons.mpr
        ⟨acyclic m hm, fun i hi hr => hw.apart i hi (.member hl hm hr)⟩⟩
    rw [structMarks, first]
    dsimp only
    rw [layout, hl, ok_bind, mapM_eq_ok_map fun m hm => by rw [marks m hm (inner m hm)]; rfl]
    rfl

/-- The walk through a finite type does not depend on what is around it. -/
theorem Settled.marks_eq (h : s.Settled n t) (hw : s.Walkable k outer t) :
    t.marks (s.structMarks k outer) = .ok (s.form t).marks := by
  induction h generalizing k outer with
  | scalar => rfl
  | pointer _ ih =>
    rw [Ty.marks, ih ⟨hw.depth, hw.nodup, hw.known, fun i hi hr => hw.apart i hi (.pointer hr)⟩]
    rfl
  | function _ _ ih ihs =>
    rw [Ty.marks, ih ⟨hw.depth, hw.nodup, hw.known, fun i hi hr => hw.apart i hi (.result hr)⟩,
      ok_bind, marksAll_eq fun p hp => ihs p hp
        ⟨hw.depth, hw.nodup, hw.known, fun i hi hr => hw.apart i hi (.parameter hp hr)⟩]
    rfl
  | @struct n f r l kept he current members ih =>
    have acyclic := (Settled.struct (f := f) he current members).acyclic_self he
    rw [Ty.marks, structMarks_eq he acyclic ih hw, form, marksOf,
      fingerprint_eq he current, structMarks_eq he acyclic ih (s.walkable_top (.struct f r))]
    rfl

/-- The fingerprint of a struct that unfolds to a finite tree. -/
theorem Settled.marksOf_eq {f : Flags} (h : s.Settled n (.struct f r)) : ∃ l,
    s.layout? r = some l ∧ (∀ m ∈ l.members, s.Settled n m.type) ∧
      s.marksOf r = .ok (.text r.name :: .number l.members.length :: s.memberMarks l.members) := by
  have whole := h
  cases h with
  | struct he current members =>
    refine ⟨_, layout?_of_entry he, members, ?_⟩
    rw [marksOf, fingerprint_eq he current, structMarks_eq he (whole.acyclic_self he)
      (fun m hm => (members m hm).marks_eq) (s.walkable_top (.struct f r))]
    rfl

/-! ### Comparing -/

theorem Settled.over (h : s.Settled n t) : t.Over fun r => ∃ n f, s.Settled n (.struct f r) := by
  induction h with
  | scalar => trivial
  | pointer _ ih => exact ih
  | function _ _ ih ihs => exact ⟨ih, Ty.allOver_of_forall ihs⟩
  | struct he current members _ => exact ⟨_, .none, .struct he current members⟩

theorem tells_settled (s : Structs) : s.Tells fun r => ∃ n f, s.Settled n (.struct f r) where
  eq_of_id := by
    rintro ⟨i, a⟩ ⟨j, b⟩ ⟨_, _, ha⟩ ⟨_, _, hb⟩ rfl
    cases ha with
    | struct ha _ _ =>
      cases hb with
      | struct hb _ _ =>
        injection ha.symm.trans hb with h
        injection h with name
        exact congrArg (StructRef.mk i) name
  fingerprint := by
    rintro a _ ⟨_, _, h⟩ _ _ _
    obtain ⟨_, _, _, marks⟩ := h.marksOf_eq
    cases hf : s.fingerprint a with
    | ok marks => exact ⟨marks, rfl⟩
    | error => rw [marksOf, hf] at marks; cases marks

/-- Finite types are equal exactly if their forms are. -/
theorem Settled.compare_iff {m : Nat} (ht : s.Settled n t) (hu : s.Settled m u) :
    (s.compare t u).outcome = .ok true ↔ s.form t = s.form u := by
  obtain ⟨c, hc, hiff⟩ := compare_outcome s.tells_settled ht.over hu.over
  rw [hc, ← hiff]
  exact ⟨Except.ok.inj, congrArg Except.ok⟩

/-! ### Reading a walk back -/

/-- What follows cannot be taken for more parameters of a type with functions inside. -/
def Bounds (n : Nat) (x : List Mark) : Prop := n = 0 ∨ ∀ f rest, x ≠ .flags f :: rest

/-- The walk through a type ends where the type does, and says all that comparisons see of it. -/
def Decodes (s : Structs) (n : Nat) (t : Ty) : Prop :=
  ∀ {u : Ty} {x y : List Mark}, s.Settled n u → Bounds n x → Bounds n y →
    (s.form t).marks ++ x = (s.form u).marks ++ y → s.form t = s.form u ∧ x = y

theorem marks_head (t : Form) : ∃ f rest, t.marks = .flags f :: rest := by
  cases t <;> exact ⟨_, _, rfl⟩

theorem bounds_memberMarks {ms : List Member} (hx : Bounds n x) :
    Bounds n (s.memberMarks ms ++ x) := by
  cases ms with
  | nil => exact hx
  | cons m ms => exact .inr fun f rest h => nomatch h

/-- The marks of members are read back one by one. -/
theorem members_decode (hms : ∀ m ∈ ms, s.Decodes n m.type)
    (hns : ∀ m ∈ ns, s.Settled n m.type) (hx : Bounds n x) (hy : Bounds n y)
    (len : ms.length = ns.length) (h : s.memberMarks ms ++ x = s.memberMarks ns ++ y) :
    List.Forall₂ (fun a b => a.name = b.name ∧ s.form a.type = s.form b.type) ms ns ∧ x = y := by
  induction ms generalizing ns with
  | nil =>
    cases ns with
    | nil => exact ⟨.nil, h⟩
    | cons => cases len
  | cons a ms ih =>
    cases ns with
    | nil => cases len
    | cons b ns =>
      obtain ⟨ha, hms⟩ := List.forall_mem_cons.mp hms
      obtain ⟨hb, hns⟩ := List.forall_mem_cons.mp hns
      simp only [memberMarks, List.flatMap_cons, List.cons_append, List.append_assoc,
        List.cons.injEq, Mark.text.injEq] at h
      obtain ⟨type, rest⟩ := ha hb (bounds_memberMarks hx) (bounds_memberMarks hy) h.2
      obtain ⟨members, rfl⟩ := ih hms hns (Nat.succ.inj len) rest
      exact ⟨.cons ⟨h.1, type⟩ members, rfl⟩

/-- So are those of parameters. -/
theorem parameters_decode {ps qs : List Ty} (hps : ∀ p ∈ ps, s.Decodes 0 p)
    (hqs : ∀ q ∈ qs, s.Settled 0 q) (hx : Bounds 1 x) (hy : Bounds 1 y)
    (h : Form.marksAll (s.forms ps) ++ x = Form.marksAll (s.forms qs) ++ y) :
    s.forms ps = s.forms qs ∧ x = y := by
  have hx := hx.resolve_left (by decide)
  have hy := hy.resolve_left (by decide)
  induction ps generalizing qs with
  | nil =>
    cases qs with
    | nil => exact ⟨rfl, h⟩
    | cons q qs =>
      obtain ⟨f, rest, hq⟩ := marks_head (s.form q)
      rw [forms, forms, Form.marksAll, Form.marksAll, hq] at h
      exact absurd h (hx f _)
  | cons p ps ih =>
    obtain ⟨hp, hps⟩ := List.forall_mem_cons.mp hps
    cases qs with
    | nil =>
      obtain ⟨f, rest, hq⟩ := marks_head (s.form p)
      rw [forms, forms, Form.marksAll, Form.marksAll, hq] at h
      exact absurd h.symm (hy f _)
    | cons q qs =>
      obtain ⟨hq, hqs⟩ := List.forall_mem_cons.mp hqs
      simp only [forms, Form.marksAll, List.append_assoc] at h
      obtain ⟨first, rest⟩ := hp hq (.inl rfl) (.inl rfl) h
      obtain ⟨others, rfl⟩ := ih hps hqs rest
      exact ⟨by rw [forms, forms, first, others], rfl⟩

/-- The marks of a settled type can be read back. -/
theorem Settled.decodes (h : s.Settled n t) (hn : n ≤ 1) : s.Decodes n t := by
  induction h with
  | scalar =>
    rintro u x y hu - - h
    cases hu with
    | scalar =>
      simp only [form, Form.marks, List.cons_append, List.nil_append, List.cons.injEq,
        Mark.flags.injEq, Mark.kind.injEq, Mark.number.injEq, UInt32.toNat_inj] at h
      obtain ⟨rfl, -, kind, size, alignment, rfl⟩ := h
      exact ⟨by simp only [form, kind, size, alignment], rfl⟩
    | pointer | function | struct => injection h with _ h; injection h with h; cases h
  | pointer _ ih =>
    rintro u x y hu hx hy h
    cases hu with
    | pointer hp =>
      simp only [form, Form.marks, List.cons_append, List.cons.injEq, Mark.flags.injEq] at h
      obtain ⟨rfl, -, h⟩ := h
      obtain ⟨pointed, rest⟩ := ih hn hp hx hy h
      exact ⟨by rw [form, form, pointed], rest⟩
    | scalar | function | struct => injection h with _ h; injection h with h; cases h
  | function _ _ ih ihs =>
    rintro u x y hu hx hy h
    obtain rfl := Nat.le_zero.mp (Nat.le_of_succ_le_succ hn)
    cases hu with
    | function hr hps =>
      simp only [form, Form.marks, List.cons_append, List.append_assoc, List.cons.injEq,
        Mark.flags.injEq] at h
      obtain ⟨rfl, -, h⟩ := h
      obtain ⟨result, h⟩ := ih (by decide) hr (.inl rfl) (.inl rfl) h
      obtain ⟨parameters, rest⟩ :=
        parameters_decode (fun p hp => ihs p hp (by decide)) hps hx hy h
      exact ⟨by rw [form, form, result, parameters], rest⟩
    | scalar | pointer | struct => injection h with _ h; injection h with h; cases h
  | @struct n f r l kept he current members ih =>
    rintro u x y hu hx hy h
    obtain ⟨l', hl', _, marks⟩ := (Settled.struct (f := f) he current members).marksOf_eq
    cases (layout?_of_entry he).symm.trans hl'
    cases hu with
    | @struct _ g r' _ _ he' current' members' =>
      obtain ⟨l', hl', _, marks'⟩ := (Settled.struct (f := g) he' current' members').marksOf_eq
      cases (layout?_of_entry he').symm.trans hl'
      simp only [form, Form.marks, marks, marks', List.cons_append, List.cons.injEq,
        Mark.flags.injEq, Except.toOption, Option.getD_some, Mark.text.injEq,
        Mark.number.injEq] at h
      obtain ⟨rfl, -, name, len, h⟩ := h
      obtain ⟨_, rfl⟩ :=
        members_decode (fun m hm => ih m hm hn) members' hx hy len h
      exact ⟨by rw [form, form, marks, marks', name, len, List.append_cancel_right h], rfl⟩
    | scalar | pointer | function => injection h with _ h; injection h with h; cases h

/-! ### Structs with the same members -/

/-- The structs have the same name and, position by position, members of the same names and equal
types. -/
def Alike (s : Structs) (a b : StructRef) : Prop :=
  a.name = b.name ∧ ∃ l m, s.layout? a = some l ∧ s.layout? b = some m ∧
    List.Forall₂ (fun x y => x.name = y.name ∧ (s.compare x.type y.type).outcome = .ok true)
      l.members m.members

theorem memberMarks_eq
    (h : List.Forall₂ (fun a b => a.name = b.name ∧ s.form a.type = s.form b.type) ms ns) :
    s.memberMarks ms = s.memberMarks ns := by
  induction h with
  | nil => rfl
  | cons first _ ih =>
    rw [memberMarks, memberMarks, List.flatMap_cons, List.flatMap_cons, first.1, first.2]
    exact congrArg _ ih

theorem members_alike_iff (hms : ∀ m ∈ ms, s.Settled n m.type)
    (hns : ∀ m ∈ ns, s.Settled n m.type) :
    List.Forall₂ (fun a b => a.name = b.name ∧ (s.compare a.type b.type).outcome = .ok true) ms ns ↔
      List.Forall₂ (fun a b => a.name = b.name ∧ s.form a.type = s.form b.type) ms ns := by
  induction ms generalizing ns with
  | nil => cases ns <;> simp
  | cons a ms ih =>
    cases ns with
    | nil => simp
    | cons b ns =>
      obtain ⟨ha, hms⟩ := List.forall_mem_cons.mp hms
      obtain ⟨hb, hns⟩ := List.forall_mem_cons.mp hns
      rw [List.forall₂_cons, List.forall₂_cons, ih hms hns, ha.compare_iff hb]

/-- **Structs are equal if they have the same members**, and only then if no function type stands
inside another, as long as none of the structs in them reaches itself. -/
theorem compare_structural {f : Flags} {a b : StructRef} (ha : s.Settled n (.struct f a))
    (hb : s.Settled n (.struct f b)) :
    ∃ c, (s.compare (.struct f a) (.struct f b)).outcome = .ok c ∧
      (s.Alike a b → c = true) ∧ (n ≤ 1 → c = true → s.Alike a b) := by
  obtain ⟨c, hc, hiff⟩ := compare_outcome s.tells_settled ha.over hb.over
  obtain ⟨l, hl, members, marks⟩ := ha.marksOf_eq
  obtain ⟨m, hm, members', marks'⟩ := hb.marksOf_eq
  refine ⟨c, hc, fun ⟨name, l', m', hl', hm', same⟩ => hiff.mpr ?_, fun hn equal => ?_⟩
  · cases hl.symm.trans hl'
    cases hm.symm.trans hm'
    have same := (members_alike_iff members members').mp same
    rw [form, form, marks, marks', name, same.length_eq, memberMarks_eq same]
  · have same := hiff.mp equal
    simp only [form, marks, marks', Form.struct.injEq, Except.ok.injEq, List.cons.injEq,
      Mark.number.injEq] at same
    obtain ⟨-, name, -, len, walk⟩ := same
    have decoded := members_decode (x := []) (y := []) (fun x hx => (members x hx).decodes hn)
      members' (.inr (by simp)) (.inr (by simp)) len (by rw [walk])
    exact ⟨name, l, m, hl, hm, (members_alike_iff members members').mpr decoded.1⟩

/-- The type of a function that gives a byte. -/
def byteOf (parameters : List Ty) : Ty := .function .none none none Builtin.u8 parameters

/-- Structs of one name, which hold a function and another struct. -/
def holding (member : Ty) : StructEntry :=
  ⟨"S", some ⟨[⟨"m", member, 0⟩, ⟨"p", .struct .none ⟨0, "P"⟩, 0⟩], 1, 1⟩, none⟩

def holders : Structs :=
  ⟨[⟨"P", some ⟨[⟨"a", Builtin.u8, 0⟩], 1, 1⟩, none⟩, holding (byteOf [Builtin.u8]),
    holding (byteOf [Builtin.u8]), holding (byteOf []), holding (byteOf [byteOf [Builtin.u8]]),
    holding (byteOf [byteOf [], Builtin.u8])]⟩

/-- The first two hold the same function, the third another. -/
theorem compare_structural_holders :
    (holders.compare (.struct .none ⟨1, "S"⟩) (.struct .none ⟨2, "S"⟩)).outcome = .ok true ∧
      (holders.compare (.struct .none ⟨1, "S"⟩) (.struct .none ⟨3, "S"⟩)).outcome = .ok false := by
  have byte : ∀ n, holders.Settled n Builtin.u8 := fun _ => .scalar
  have inner : ∀ n, holders.Settled n (.struct .none ⟨0, "P"⟩) := fun n =>
    .struct rfl (by simp) (List.forall_mem_singleton.mpr (byte n))
  have settled : ∀ i ps, (∀ p ∈ ps, holders.Settled 0 p) →
      holders.entry? ⟨i, "S"⟩ = some (holding (byteOf ps)) →
      holders.Settled 1 (.struct .none ⟨i, "S"⟩) := fun i ps hps he =>
    .struct he (by simp) (List.forall_mem_cons.mpr ⟨.function (byte 0) hps,
      List.forall_mem_singleton.mpr (inner 1)⟩)
  have first := settled 1 [Builtin.u8] (List.forall_mem_singleton.mpr (byte 0)) rfl
  have second := settled 2 [Builtin.u8] (List.forall_mem_singleton.mpr (byte 0)) rfl
  have third := settled 3 [] (by simp) rfl
  obtain ⟨c, hc, same, -⟩ := compare_structural first second
  obtain ⟨d, hd, -, only⟩ := compare_structural first third
  refine ⟨?_, ?_⟩
  · rw [hc, same ⟨rfl, _, _, rfl, rfl, .cons ⟨rfl, rfl⟩ (.cons ⟨rfl, rfl⟩ .nil)⟩]
  · cases d with
    | false => exact hd
    | true =>
      obtain ⟨-, l, m, hl, hm, members⟩ := only (by decide) rfl
      cases hl
      cases hm
      cases members with
      | cons h _ => exact absurd h.2 (by decide)

/-- A function that takes a function of a byte and one that takes a function and a byte differ, but
the structs that hold them are equal. -/
example : (holders.compare (byteOf [byteOf [Builtin.u8]])
    (byteOf [byteOf [], Builtin.u8])).outcome =
    .ok false ∧
    (holders.compare (.struct .none ⟨4, "S"⟩) (.struct .none ⟨5, "S"⟩)).outcome = .ok true := by
  decide

end Structs

end Gauge
