import Gauge.Proofs.Code.Machine

/-!
# Proofs — code does what its tree does

Where running a function's tree ends, running its code ends with the same value and the same stores,
in the same order.  `Exec.Sim` says that the machine answers whatever a piece of the tree does; its
rules follow the ways in which trees and code are put together, and the proof is one induction over
the tree.

The registers of variables hold the addresses of their storage (`Machine.At`), and a piece of code
leaves all older names as they were (`Machine.Passed`).  Expressions of type `Void` need not
leave a value behind: nothing reads it, because the tree is well typed.

Main statement: `Module.build_refines`.
-/

namespace Gauge

open Code

/-! ### Answers -/

namespace Machine

/-- The machine stands before the code `ahead`; it has the memory of the state, and its names of
variables stand for their storage. -/
structure At (code ahead : List Event) (σ : State) (m : Machine) : Prop where
  rest : m.rest = ahead
  suffix : ahead <:+ code
  memory : m.memory = σ.memory
  slots : ∀ k, m.regs (.slot k) = (σ.env k).map fun cell => .address (some cell)

/-- The machine has run code up to `rest`; names below the given numbers are as they were. -/
structure Passed (code : List Event) (temps slots : Nat) (rest : List Event) (m : Machine)
    (σ : State) (m' : Machine) : Prop where
  place : m'.At code rest σ
  kept : ∀ id : ValueId, id.Below temps slots → m'.regs id = m.regs id

variable {fill : Nat → Ty → Option Value} {code rest rest' : List Event} {e : Event} {l : Label}
  {m m₁ m₂ : Machine} {σ σ₁ σ₂ : State} {t t' a a' : Nat} {v : Option Value}

theorem put_self {id : ValueId} : (m.put id v).regs id = v := if_pos rfl

theorem put_ne {id id' : ValueId} (h : id ≠ id') : (m.put id' v).regs id = m.regs id := if_neg h

/-- A new name does not touch what older ones stand for. -/
theorem put_kept {id : ValueId} (h : id.Below t a) (ht : t ≤ t') :
    (m.put (.temp t') v).regs id = m.regs id := by
  refine put_ne ?_
  rintro rfl
  exact absurd h (Nat.not_lt.mpr ht)

namespace At

theorem eq (h : m.At code rest σ) (he : rest = rest') : m.At code rest' σ := he ▸ h

theorem step_eq (h : m.At code (e :: rest) σ) :
    m.step fill code = { m with rest := rest }.react fill code e := by
  rw [step, h.rest]

theorem tail (h : m.At code (e :: rest) σ) : { m with rest := rest }.At code rest σ :=
  ⟨rfl, (List.suffix_cons e rest).trans h.suffix, h.memory, h.slots⟩

theorem put (h : m.At code rest σ) : (m.put (.temp t) v).At code rest σ :=
  ⟨h.rest, h.suffix, h.memory, fun k => (put_ne (by simp)).trans (h.slots k)⟩

/-- Going to a label that is set somewhere in the code. -/
theorem jump {ys : List Event} (hc : Unambiguous code) (h : m.At code rest σ)
    (hl : .label l :: ys <:+ code) :
    m.jump code l = some (.goes { m with rest := ys }) ∧ { m with rest := ys }.At code ys σ := by
  have target : target id l code = some ys := by
    refine target_eq ?_ rfl hl
    rw [List.map_id]
    exact hc
  refine ⟨by rw [Machine.jump, target]; rfl, rfl, ?_, h.memory, h.slots⟩
  exact (List.suffix_cons _ ys).trans hl

end At

namespace Passed

theorem start (h : m.At code rest σ) : Passed code t a rest m σ m := ⟨h, fun _ _ => rfl⟩

theorem trans (h₁ : Passed code t a rest m σ₁ m₁) (h₂ : Passed code t' a' rest' m₁ σ₂ m₂)
    (ht : t ≤ t') (ha : a ≤ a') : Passed code t a rest' m σ₂ m₂ :=
  ⟨h₂.place, fun id hid => (h₂.kept id (hid.mono ht ha)).trans (h₁.kept id hid)⟩

theorem mono (h : Passed code t' a' rest m σ m₁) (ht : t ≤ t') (ha : a ≤ a') :
    Passed code t a rest m σ m₁ := ⟨h.place, fun id hid => h.kept id (hid.mono ht ha)⟩

/-- An event that gives a new name a value. -/
theorem put (h : m.At code (e :: rest) σ) (ht : t ≤ t') :
    Passed code t a rest m σ ({ m with rest := rest }.put (.temp t') v) :=
  ⟨h.tail.put, fun _ hid => put_kept hid ht⟩

/-- A branch goes on with the next event if its condition holds, and at a label if not. -/
theorem branch (fill : Nat → Ty → Option Value) {type : Ty} {condition : ValueId} {w : Value}
    {holds : Bool} {after : Label} {ys : List Event} (hc : Unambiguous code)
    (h : m.At code (.branch (.temp t) type condition l after :: rest) σ)
    (hw : m.regs condition = some w) (hl : .label l :: ys <:+ code)
    (ho : w.holds? = some holds) :
    ∃ m', m.step fill code = some (.goes m') ∧
      Passed code t a (if holds then rest else ys) m σ m' := by
  have enter : Passed code t a rest m σ _ := put (v := none) h le_rfl
  obtain ⟨hj, place⟩ := enter.place.jump hc hl
  have step : m.step fill code = if holds then
      some (.goes ({ m with rest := rest }.put (.temp t) none))
      else ({ m with rest := rest }.put (.temp t) none).jump code l := by
    rw [h.step_eq, react, hw]
    simp only [Option.bind_eq_bind, Option.bind_some, ho]
    rfl
  cases holds with
  | true => exact ⟨_, step, enter⟩
  | false => exact ⟨_, step.trans hj, place, enter.kept⟩

end Passed

end Machine

/-- The code of a function, what it gives back, and what its tree is run with. -/
structure Code.Setting where
  code : List Event
  unambiguous : Unambiguous code
  structs : Structs
  result : Ty
  known : Callee → Prop
  fill : Nat → Ty → Option Value
  turns : Nat

/-- The machine answers how a piece of a tree ends: it gets to a place that is as expected, or it
returns what the function does. -/
def Flow.Answered {α : Type} (C : Setting) (m : Machine) (Q : α → State → Machine → Prop) :
    Flow α → Prop
  | .next a σ => ∃ m', Q a σ m' ∧
      ∀ v memory, m'.Runs C.fill C.code v memory → m.Runs C.fill C.code v memory
  | .returned v memory => m.Runs C.fill C.code (if C.result.isVoid then none else v) memory

/-- The machine answers the piece `x` of a tree. -/
def Exec.Sim {α : Type} (C : Setting) (x : Exec α) (σ : State) (m : Machine)
    (Q : α → State → Machine → Prop) : Prop :=
  ∀ r, x σ = some r → r.Answered C m Q

/-- Before the code `xs` of an arm, the machine answers the arm and leaves its value, if it has one,
under the name of the branch. -/
def Exec.Arm (C : Setting) (t b : Nat) (has : Prop) (x : Exec Value) (xs : List Event) : Prop :=
  ∀ ⦃σ : State⦄ ⦃m : Machine⦄ ⦃rest : List Event⦄, m.At C.code (xs ++ rest) σ →
    x.Sim C σ m fun v σ' m' =>
      m.Passed C.code t b rest σ' m' ∧ (has → m'.regs (.temp t) = some v)

variable {C : Setting}

namespace Exec.Sim

variable {α β : Type} {x : Exec α} {f : α → Exec β} {σ : State} {m m' : Machine}
  {Q : α → State → Machine → Prop} {R : β → State → Machine → Prop}

/-- One piece behind another. -/
theorem bind (hx : x.Sim C σ m Q) (hf : ∀ a σ' m', Q a σ' m' → (f a).Sim C σ' m' R) :
    (x >>= f).Sim C σ m R := by
  intro r hr
  have hr : x.bind f σ = some r := hr
  unfold Exec.bind at hr
  split at hr
  · next a σ' h =>
    obtain ⟨m', hd, back⟩ := hx _ h
    have answered := hf a σ' m' hd r hr
    cases r with
    | next b σ'' =>
      obtain ⟨m'', hd', back'⟩ := answered
      exact ⟨m'', hd', fun v memory hv => back v memory (back' v memory hv)⟩
    | returned v memory => exact back _ _ answered
  · next v memory h =>
    cases hr
    exact hx _ h
  · cases hr

theorem pure {a : α} (h : Q a σ m) : (Pure.pure a : Exec α).Sim C σ m Q := by
  intro r hr
  cases hr
  exact ⟨m, h, fun _ _ hv => hv⟩

theorem fail : (Exec.fail : Exec α).Sim C σ m Q := fun r hr => by cases hr

/-- Behind a piece of the tree, the machine may go on by itself. -/
theorem after {R : α → State → Machine → Prop} (h : x.Sim C σ m Q)
    (hd : ∀ a σ' m', Q a σ' m' → (Pure.pure a : Exec α).Sim C σ' m' R) : x.Sim C σ m R := by
  intro r hr
  have answered := h r hr
  cases r with
  | next a σ' =>
    obtain ⟨m', hm', back⟩ := answered
    obtain ⟨m'', hm'', back'⟩ := hd a σ' m' hm' _ rfl
    exact ⟨m'', hm'', fun v memory hv => back v memory (back' v memory hv)⟩
  | returned v memory => exact answered

/-- Less may be said of what is behind a piece. -/
theorem mono {R : α → State → Machine → Prop} (h : x.Sim C σ m Q)
    (hR : ∀ a σ' m', Q a σ' m' → R a σ' m') : x.Sim C σ m R :=
  h.after fun a σ' m' hQ => pure (hR a σ' m' hQ)

/-- Nothing is to be said of what is behind a piece that does not go on. -/
theorem never {R : α → State → Machine → Prop} (h : x.Sim C σ m Q)
    (hx : ∀ a σ', x σ ≠ some (.next a σ')) : x.Sim C σ m R := by
  intro r hr
  cases r with
  | next a σ' => exact absurd hr (hx a σ')
  | returned v memory => exact h _ hr

/-- The machine takes a step that the tree does not see. -/
theorem silent (h : m.step C.fill C.code = some (.goes m')) (hx : x.Sim C σ m' Q) :
    x.Sim C σ m Q := by
  intro r hr
  have answered := hx r hr
  cases r with
  | next a σ' =>
    obtain ⟨m'', hd, back⟩ := answered
    exact ⟨m'', hd, fun v memory hv => .goes h (back v memory hv)⟩
  | returned v memory => exact .goes h answered

/-- The tree takes a step, and the machine none. -/
theorem still {g : State → Option (α × State)} (h : ∀ a σ', g σ = some (a, σ') → Q a σ' m) :
    (Exec.step g).Sim C σ m Q := by
  intro r hr
  obtain ⟨⟨a, σ'⟩, hg, rfl⟩ := Option.map_eq_some_iff.mp hr
  exact ⟨m, h a σ' hg, fun _ _ hv => hv⟩

/-- Both take a step. -/
theorem both {g : State → Option (α × State)} (h : ∀ a σ', g σ = some (a, σ') →
      ∃ m', m.step C.fill C.code = some (.goes m') ∧ Q a σ' m') :
    (Exec.step g).Sim C σ m Q := by
  intro r hr
  obtain ⟨⟨a, σ'⟩, hg, rfl⟩ := Option.map_eq_some_iff.mp hr
  obtain ⟨m', hm, hd⟩ := h a σ' hg
  exact ⟨m', hd, fun v memory hv => .goes hm hv⟩

/-- An event that gives a new name the value of an operation. -/
theorem named {o : Option Value} {e : Event} {t : Nat} {rest : List Event}
    {Q : Value → State → Machine → Prop} (hm : m.At C.code (e :: rest) σ)
    (hr : { m with rest := rest }.react C.fill C.code e =
      { m with rest := rest }.result (.temp t) o)
    (hd : ∀ v, o = some v → Q v σ ({ m with rest := rest }.put (.temp t) (some v))) :
    (Exec.ofOption o).Sim C σ m Q := by
  refine both ?_
  intro v σ' hv
  obtain ⟨w, ho, hw⟩ := Option.map_eq_some_iff.mp hv
  cases hw
  refine ⟨_, ?_, hd v ho⟩
  rw [hm.step_eq, hr, ho]
  rfl

/-- A condition is looked at where it is known. -/
theorem tested {v : Value} : (Exec.ofOption v.holds?).Sim C σ m fun holds σ' m' =>
    σ' = σ ∧ m' = m ∧ v.holds? = some holds := by
  refine still ?_
  intro holds σ' h
  obtain ⟨_, ho, he⟩ := Option.map_eq_some_iff.mp h
  cases he
  exact ⟨rfl, rfl, ho⟩

/-- The code of two arms: the machine runs the one that is chosen, and goes on behind both. -/
theorem branching {t b l : Nat} {type : Ty} {condition : ValueId} {v : Value} {has : Prop}
    {xs ys post : List Event} {x y : Exec Value}
    (hm : m.At C.code (Code.branching (.temp t) type condition l xs ys ++ post) σ)
    (hv : m.regs condition = some v) (hx : x.Arm C t b has xs) (hy : y.Arm C t b has ys) :
    (Exec.choose v x y).Sim C σ m fun w σ' m' =>
      m.Passed C.code t b post σ' m' ∧ (has → m'.regs (.temp t) = some w) := by
  have head : m.At C.code (.branch (.temp t) type condition ⟨l⟩ ⟨l + 1⟩ ::
      (xs ++ .jump ⟨l + 1⟩ :: .label ⟨l⟩ :: (ys ++ .jump ⟨l + 1⟩ :: .label ⟨l + 1⟩ :: post))) σ :=
    hm.eq (by simp [Code.branching])
  have middle : .label ⟨l⟩ :: (ys ++ .jump ⟨l + 1⟩ :: .label ⟨l + 1⟩ :: post) <:+ C.code :=
    (List.suffix_cons _ _).trans (suffix_behind head.suffix)
  have last : .label ⟨l + 1⟩ :: post <:+ C.code :=
    (List.suffix_cons _ _).trans (suffix_behind middle)
  -- Both arms end in a jump to what follows the branch.
  have leave : ∀ {m' : Machine} {rest : List Event} {σ' : State} {w : Value},
      m.Passed C.code t b (.jump ⟨l + 1⟩ :: rest) σ' m' → (has → m'.regs (.temp t) = some w) →
      (Pure.pure w : Exec Value).Sim C σ' m' fun w σ' m' =>
        m.Passed C.code t b post σ' m' ∧ (has → m'.regs (.temp t) = some w) := by
    intro m' rest σ' w passed hw
    obtain ⟨hj, place⟩ := passed.place.tail.jump C.unambiguous last
    exact silent (passed.place.step_eq.trans hj) (pure ⟨⟨place, passed.kept⟩, hw⟩)
  refine bind tested ?_
  rintro holds _ _ ⟨rfl, rfl, ho⟩
  obtain ⟨m₁, hs, enter⟩ := Machine.Passed.branch C.fill (a := b) C.unambiguous head hv middle ho
  refine silent hs ?_
  cases holds with
  | true =>
    refine (hx enter.place).after ?_
    rintro w σ' m' ⟨passed, hw⟩
    exact leave (enter.trans passed le_rfl le_rfl) hw
  | false =>
    refine (hy enter.place).after ?_
    rintro w σ' m' ⟨passed, hw⟩
    exact leave (enter.trans passed le_rfl le_rfl) hw

/-- The code of a loop, by induction on the turns that the tree may take: each turn of the machine
starts behind the first label. -/
theorem loop {t t' a l : Nat} {type : Ty} {condition : ValueId} {xs ys post : List Event}
    {x y : Exec Value} (ht : t ≤ t')
    (hl : .label ⟨l⟩ :: (xs ++ .branch (.temp t') type condition ⟨l + 1⟩ ⟨l + 1⟩ ::
      (ys ++ .jump ⟨l⟩ :: .label ⟨l + 1⟩ :: post)) <:+ C.code)
    (hx : ∀ {σ : State} {m : Machine} {rest : List Event}, m.At C.code (xs ++ rest) σ →
      x.Sim C σ m fun v σ' m' =>
        m.Passed C.code t a rest σ' m' ∧ m'.regs condition = some v)
    (hy : ∀ {σ : State} {m : Machine} {rest : List Event}, m.At C.code (ys ++ rest) σ →
      y.Sim C σ m fun _ σ' m' => m.Passed C.code t a rest σ' m') :
    ∀ (n : Nat) {σ : State} {m : Machine},
      m.At C.code (xs ++ .branch (.temp t') type condition ⟨l + 1⟩ ⟨l + 1⟩ ::
        (ys ++ .jump ⟨l⟩ :: .label ⟨l + 1⟩ :: post)) σ →
      (Exec.loop x y n).Sim C σ m fun _ σ' m' => m.Passed C.code t a post σ' m'
  | 0, σ, m, _ => fail
  | n + 1, σ, m, hm => by
    have exit : .label ⟨l + 1⟩ :: post <:+ C.code :=
      (List.suffix_cons _ _).trans (suffix_behind (suffix_behind hl))
    refine bind (hx hm) ?_
    rintro v σ₁ m₁ ⟨first, hv⟩
    refine bind tested ?_
    rintro holds _ _ ⟨rfl, rfl, ho⟩
    obtain ⟨m₂, hs, enter⟩ :=
      Machine.Passed.branch C.fill (a := a) C.unambiguous first.place hv exit ho
    have entered := first.trans enter ht le_rfl
    refine silent hs ?_
    cases holds with
    | false => exact pure entered
    | true =>
      refine bind (hy enter.place) ?_
      intro _ σ₃ m₃ body
      obtain ⟨hj, place⟩ := body.place.tail.jump C.unambiguous hl
      have turn := (entered.trans body le_rfl le_rfl).kept
      refine silent (body.place.step_eq.trans hj) ?_
      refine (loop ht hl hx hy n place).mono ?_
      intro _ σ₄ m₄ passed
      exact ⟨passed.place, fun id hid => (passed.kept id hid).trans (turn id hid)⟩

end Exec.Sim

/-! ### Constants and conversions -/

variable {m : Machine} {post : List Event} {σ : State}

theorem Constant.emit_sim {c : Constant} {type : Ty} {s : Supply} {a : Nat}
    (hm : m.At C.code ((c.emit type s).events ++ post) σ) :
    (pure c.value : Exec Value).Sim C σ m fun v σ' m' =>
      m.Passed C.code s.temps a post σ' m' ∧ m'.regs (c.emit type s).value = some v := by
  cases c with
  | integer n | null | bool b =>
    exact .silent hm.step_eq (.pure ⟨.put hm le_rfl, Machine.put_self⟩)

/-- The event of a conversion does what the conversion does. -/
theorem CastAction.event?_react {fill : Nat → Ty → Option Value} {code : List Event}
    {action : CastAction} {source type : Ty} {id value : ValueId} {e : Event} {v : Value}
    (h : action.event? source type id value = some e) (hv : m.regs value = some v) :
    m.react fill code e = m.result id (action.perform? m.memory source type v) := by
  cases action with
  | reinterpret => cases h
  | _ =>
    cases h
    rw [Machine.react, hv]
    rfl

/-- A conversion without an event leaves the value as it is. -/
theorem CastAction.perform?_eq {action : CastAction} {source type : Ty} {id value : ValueId}
    {m : Memory} {v w : Value} (h : action.event? source type id value = none)
    (hw : action.perform? m source type v = some w) : w = v := by
  cases action with
  | reinterpret => exact (Option.some.inj hw).symm
  | _ => cases h

/-- Conversions one after the other. -/
theorem Exec.convert_cons {type : Ty} {v : Value} {st : Step} {sts : List Step} :
    Exec.convert type v (st :: sts) =
      (Exec.step fun σ =>
        (st.edge.action.perform? σ.memory type st.edge.destination v).map fun w => (w, σ)) >>=
      fun w => Exec.convert st.edge.destination w sts := by
  funext σ
  show ((Step.performAll? σ.memory type v (st :: sts)).map fun w => (w, σ)).map _ = Exec.bind _ _ σ
  simp only [Step.performAll?, Exec.bind, Exec.step]
  cases st.edge.action.perform? σ.memory type st.edge.destination v with
  | none | some w => rfl

/-- By induction on the steps. -/
theorem Step.emitAll_sim {a : Nat} : ∀ {steps : List Step} {type : Ty}
    {value : ValueId} {s : Supply} {v : Value} {σ : State} {m : Machine},
    m.At C.code ((Step.emitAll type value steps s).events ++ post) σ → m.regs value = some v →
    (Exec.convert type v steps).Sim C σ m fun w σ' m' =>
      m.Passed C.code s.temps a post σ' m' ∧
        m'.regs (Step.emitAll type value steps s).value = some w
  | [], type, value, s, v, σ, m, hm, hv => by
    refine .still ?_
    intro w σ' h
    cases h
    exact ⟨.start hm, hv⟩
  | st :: sts, type, value, s, v, σ, m, hm, hv => by
    rw [Exec.convert_cons]
    cases he : st.edge.action.event? type st.edge.destination (.temp s.temps) value with
    | some e =>
      rw [Step.emitAll_some he] at hm ⊢
      refine .bind (.both (Q := fun w σ' m' => m.Passed C.code s.temps a
        ((Step.emitAll st.edge.destination (.temp s.temps) sts
          ⟨s.temps + 1, s.labels⟩).events ++ post) σ' m' ∧
        m'.regs (.temp s.temps) = some w) ?_) ?_
      · intro w σ' h
        obtain ⟨_, hw, h⟩ := Option.map_eq_some_iff.mp h
        cases h
        refine ⟨_, ?_, .put hm le_rfl, Machine.put_self⟩
        refine (hm.step_eq.trans (CastAction.event?_react he hv)).trans ?_
        rw [hm.memory, hw]
        rfl
      · rintro w σ₁ m₁ ⟨first, hw⟩
        refine (Step.emitAll_sim (a := a) first.place hw).mono ?_
        rintro u σ' m' ⟨passed, hu⟩
        exact ⟨first.trans passed (Nat.le_succ _) le_rfl, hu⟩
    | none =>
      rw [Step.emitAll_none he] at hm ⊢
      refine .bind (.still (Q := fun w σ' m' => σ' = σ ∧ m' = m ∧ w = v) ?_) ?_
      · intro w σ' h
        obtain ⟨_, hw, h⟩ := Option.map_eq_some_iff.mp h
        cases h
        exact ⟨rfl, rfl, CastAction.perform?_eq he hw⟩
      · rintro _ _ _ ⟨rfl, rfl, rfl⟩
        refine (Step.emitAll_sim (a := a) hm hv).mono ?_
        rintro u σ' m' ⟨passed, hu⟩
        exact ⟨passed.mono (Nat.le_succ _) le_rfl, hu⟩

/-- The conversions of a node; where it is worth nothing, there are none. -/
theorem Facts.WellTyped.convert_sim {st : Structs} {f : Facts} (hf : f.WellTyped st)
    {value : ValueId} {s : Supply} {v : Value} {a : Nat}
    (hm : m.At C.code ((Step.emitAll f.type value f.chain.steps s).events ++ post) σ)
    (hv : f.type.HasValue → m.regs value = some v) :
    (Exec.convert f.type v f.chain.steps).Sim C σ m fun w σ' m' =>
      m.Passed C.code s.temps a post σ' m' ∧
        ((Step.typeAfter f.type f.chain.steps).HasValue →
          m'.regs (Step.emitAll f.type value f.chain.steps s).value = some w) := by
  rcases hf.hasValue_or with hasValue | none
  · refine (Step.emitAll_sim (a := a) hm (hv hasValue)).mono ?_
    rintro w σ' m' ⟨passed, hw⟩
    exact ⟨passed, fun _ => hw⟩
  · rw [none] at hm ⊢
    refine .still ?_
    intro w σ' h
    cases h
    exact ⟨.start hm, hv⟩

/-! ### Storage and returning -/

/-- A return ends the run with the value that it names. -/
theorem Machine.At.returns {fill : Nat → Ty → Option Value} {code rest : List Event} {type : Ty}
    {value : ValueId} {v : Value}
    (hm : m.At code (.ret (if type.isVoid then none else some value) :: rest) σ)
    (hv : type.isVoid = false → m.regs value = some v) :
    m.Runs fill code (if type.isVoid then none else some v) σ.memory := by
  cases ht : type.isVoid with
  | true =>
    rw [ht] at hm
    exact .ends (hm.step_eq.trans (by rw [← hm.memory]; rfl))
  | false =>
    rw [ht] at hm
    refine .ends (hm.step_eq.trans ?_)
    rw [← hm.memory]
    exact congrArg (Option.map _) (hv ht)

namespace Exec.Sim

variable {m : Machine} {σ : State} {rest : List Event}

/-- New storage for a variable. -/
theorem allocate {k t a : Nat} {type : Ty} {name : String}
    (hm : m.At C.code (.allocate (.slot k) type name :: rest) σ) (hk : a ≤ k) :
    (Exec.allocate C.fill k type).Sim C σ m fun _ σ' m' => m.Passed C.code t a rest σ' m' := by
  refine both ?_
  intro _ σ' h
  cases h
  refine ⟨_, hm.step_eq, ⟨rfl, hm.tail.suffix, ?_, ?_⟩, ?_⟩
  · show m.memory.allocate _ = _
    rw [hm.memory]
  · intro k'
    show (if ValueId.slot k' = .slot k then _ else m.regs (.slot k')) = _
    by_cases h : k' = k
    · rw [if_pos (congrArg _ h)]
      simp only [h, if_true, Option.map_some, hm.memory]
    · rw [if_neg (by simpa using h), hm.slots k']
      simp only [if_neg h]
  · intro id hid
    refine if_neg ?_
    rintro rfl
    exact absurd hid (Nat.not_lt.mpr hk)

/-- The storage of a variable is what its name stands for. -/
theorem location {k : Nat} (hm : m.At C.code rest σ) :
    (Exec.location k).Sim C σ m fun v σ' m' =>
      σ' = σ ∧ m' = m ∧ m.regs (.slot k) = some v := by
  refine still ?_
  intro v σ' h
  obtain ⟨cell, hk, h⟩ := Option.map_eq_some_iff.mp h
  cases h
  exact ⟨rfl, rfl, by rw [hm.slots k, hk]; rfl⟩

/-- A store has the same effect on both memories. -/
theorem store {target value : ValueId} {x y : Value} {t a : Nat}
    (hm : m.At C.code (.store target value :: rest) σ) (hx : m.regs target = some x)
    (hy : m.regs value = some y) :
    (Exec.store x y).Sim C σ m fun _ σ' m' =>
      m.Passed C.code t a rest σ' m' ∧ m'.regs = m.regs := by
  refine both ?_
  intro _ σ' h
  obtain ⟨memory, hs, h⟩ := Option.map_eq_some_iff.mp h
  cases h
  refine ⟨{ m with rest := rest, memory := memory }, ?_,
    ⟨⟨rfl, hm.tail.suffix, rfl, hm.slots⟩, fun _ _ => rfl⟩, rfl⟩
  rw [hm.step_eq, Machine.react]
  simp only [hx, hy, hm.memory, hs, Option.bind_eq_bind, Option.bind_some]
  rfl

/-! ### Arms -/

variable {x : Exec Value} {t t' b : Nat} {value : ValueId}

/-- Behind an arm that has a value, a branch gets it. -/
theorem given {p q : Prop}
    (hx : x.Sim C σ m fun v σ' m' =>
      m.Passed C.code t' b (.branchResult (.temp t) value :: rest) σ' m' ∧
        (p → m'.regs value = some v))
    (h : p) (ht : t ≤ t') :
    x.Sim C σ m fun v σ' m' =>
      m.Passed C.code t b rest σ' m' ∧ (q → m'.regs (.temp t) = some v) := by
  refine hx.after ?_
  rintro v σ' m' ⟨passed, hv⟩
  have place := passed.place
  have step : m'.step C.fill C.code =
      some (.goes ({ m' with rest := rest }.put (.temp t) (some v))) := by
    rw [place.step_eq, Machine.react, Machine.result]
    exact congrArg _ (hv h)
  have given : m'.Passed C.code t b rest σ' _ := .put (v := some v) place le_rfl
  exact silent step
    (pure ⟨(passed.mono ht le_rfl).trans given le_rfl le_rfl, fun _ => Machine.put_self⟩)

/-- What is behind a piece is behind what came before it. -/
theorem behind {R : Value → Machine → Prop} {m₀ : Machine} {σ₀ : State} {rest₀ : List Event}
    {t₀ b₀ : Nat}
    (hx : x.Sim C σ m fun v σ' m' => m.Passed C.code t b rest σ' m' ∧ R v m')
    (h : m₀.Passed C.code t₀ b₀ rest₀ σ₀ m) (ht : t₀ ≤ t) (hb : b₀ ≤ b) :
    x.Sim C σ m fun v σ' m' => m₀.Passed C.code t₀ b₀ rest σ' m' ∧ R v m' :=
  hx.mono fun _ _ _ h' => ⟨h.trans h'.1 ht hb, h'.2⟩

end Exec.Sim

/-- A branch gets a value that is known without running anything. -/
theorem Exec.Arm.known {n t t' b : Nat} {type : Ty} {has : Prop} (ht : t ≤ t') :
    (pure (Value.int n) : Exec Value).Arm C t b has
      [.literal (.temp t') n type, .branchResult (.temp t) (.temp t')] := by
  intro σ m rest hm
  exact .given (p := True) (.silent hm.step_eq (.pure ⟨.put hm le_rfl, fun _ => Machine.put_self⟩))
    trivial ht

/-! ### Expressions

One lemma for each kind of node says that the machine answers it if it answers its parts. -/

/-- The machine answers an expression, and leaves its value, if it has one, under the name that its
code gives it. -/
def Typed.Answers (C : Setting) (e : Typed) : Prop :=
  ∀ ⦃V : List Nat⦄ ⦃a b : Nat⦄ (s : Supply) ⦃σ : State⦄ ⦃m : Machine⦄ ⦃post : List Event⦄,
    e.Scoped C.known V a b → (∀ k ∈ V, k < a) → e.WellTyped C.structs C.result →
    m.At C.code ((e.emit s).events ++ post) σ →
    (e.eval C.fill C.turns).Sim C σ m fun v σ' m' =>
      m.Passed C.code s.temps a post σ' m' ∧ (e.type.HasValue → m'.regs (e.emit s).value = some v)

/-- The machine answers a node. -/
def Node.Answers (C : Setting) (n : Node) : Prop :=
  ∀ (type : Ty) ⦃V : List Nat⦄ ⦃a b : Nat⦄ (s : Supply) ⦃σ : State⦄ ⦃m : Machine⦄
    ⦃post : List Event⦄, n.Scoped C.known V a b → (∀ k ∈ V, k < a) →
    n.WellTyped C.structs C.result type → m.At C.code ((n.emit type s).events ++ post) σ →
    (n.eval C.fill C.turns type).Sim C σ m fun v σ' m' =>
      m.Passed C.code s.temps a post σ' m' ∧
        (type.HasValue → m'.regs (n.emit type s).value = some v)

/-- The machine answers a statement. -/
def TypedStmt.Answers (C : Setting) (t : TypedStmt) : Prop :=
  ∀ ⦃V : List Nat⦄ ⦃a b : Nat⦄ (s : Supply) ⦃σ : State⦄ ⦃m : Machine⦄ ⦃post : List Event⦄,
    t.Scoped C.known V a b → (∀ k ∈ V, k < a) → t.WellTyped C.structs C.result →
    m.At C.code ((t.emit s).events ++ post) σ →
    (t.eval C.fill C.turns).Sim C σ m fun _ σ' m' => m.Passed C.code s.temps a post σ' m'

/-- The machine answers statements one after the other. -/
def TypedStmt.AnswersAll (C : Setting) (ss : List TypedStmt) : Prop :=
  ∀ ⦃V : List Nat⦄ ⦃a b : Nat⦄ (s : Supply) ⦃σ : State⦄ ⦃m : Machine⦄ ⦃post : List Event⦄,
    TypedStmt.ScopedAll C.known V a b ss → (∀ k ∈ V, k < a) →
    TypedStmt.WellTypedAll C.structs C.result ss →
    m.At C.code ((TypedStmt.emitAll ss s).events ++ post) σ →
    (TypedStmt.evalAll C.fill C.turns ss).Sim C σ m fun _ σ' m' =>
      m.Passed C.code s.temps a post σ' m'

section Trees

variable {e x y c t r : Typed} {ss : List TypedStmt}

/-- A node, and the conversions behind it. -/
theorem Typed.Answers.mk {f : Facts} {n : Node} (hn : n.Answers C) : (Typed.mk f n).Answers C := by
  intro V a b s σ m post h hV hw hm
  have placed := Node.emit_placed n f.type s h hV
  refine .bind (hn f.type s h hV hw.2 (hm.eq (List.append_assoc _ _ post))) ?_
  rintro v σ₁ m₁ ⟨passed, hv⟩
  exact (hw.1.convert_sim (a := b) passed.place hv).behind passed placed.temps placed.slots

/-- An arm whose value is given to the branch. -/
theorem Typed.Answers.given {V : List Nat} {a b k : Nat} {s : Supply} {has : Prop}
    (he : e.Answers C) (h : e.Scoped C.known V a b) (hV : ∀ k ∈ V, k < a)
    (hw : e.WellTyped C.structs C.result) (hasValue : e.type.HasValue) (hk : k ≤ s.temps) :
    (e.eval C.fill C.turns).Arm C k a has
      ((e.emit s).events ++ [.branchResult (.temp k) (e.emit s).value]) := by
  intro σ m rest hm
  exact .given (he s h hV hw (hm.eq (List.append_assoc _ _ rest))) hasValue hk

/-- An arm of a branch that has a value. -/
theorem Typed.Answers.arm {V : List Nat} {a b k : Nat} {s : Supply} {type : Ty}
    (he : e.Answers C) (h : e.Scoped C.known V a b) (hV : ∀ k ∈ V, k < a)
    (hw : e.WellTyped C.structs C.result) (ht : e.type = type) (hf : type.isFlagged = false)
    (hk : k ≤ s.temps) :
    (e.eval C.fill C.turns).Arm C k a type.HasValue ((e.emit s).events ++
      give (!type.isVoid && e.producesValue) (.temp k) (e.emit s).value) := by
  intro σ m rest hm
  have sim := he s h hV hw (hm.eq (List.append_assoc _ _ _))
  cases hp : !type.isVoid && e.producesValue with
  | true =>
    rw [hp] at sim
    rw [Bool.and_eq_true, Bool.not_eq_true'] at hp
    exact sim.given (ht ▸ Ty.hasValue_of_not_void hp.1) hk
  | false =>
    rw [hp] at sim
    by_cases hd : e.diverges = true
    · exact sim.never fun _ _ => Typed.not_next_of_diverges hd
    · refine sim.mono ?_
      rintro v σ' m' ⟨passed, -⟩
      refine ⟨passed.mono hk le_rfl, fun hasValue => absurd ?_ hd⟩
      have hvoid := Ty.not_void_of_hasValue hasValue hf
      rw [hvoid, Bool.not_false, Bool.true_and] at hp
      exact hw.diverges (ht ▸ hvoid) hp

/-- A condition, and the arm that it chooses. -/
theorem Typed.Answers.branching {V : List Nat} {a b l : Nat} {s : Supply} {type : Ty} {has : Prop}
    {x y : Exec Value} {xs ys : List Event} (hc : c.Answers C) (h : c.Scoped C.known V a b)
    (hV : ∀ k ∈ V, k < a) (hw : c.WellTyped C.structs C.result) (ht : c.type = Builtin.bool)
    (hm : m.At C.code (((c.emit s).events ++
      Code.branching (.temp (c.emit s).supply.temps) type (c.emit s).value l xs ys) ++ post) σ)
    (hx : x.Arm C (c.emit s).supply.temps b has xs)
    (hy : y.Arm C (c.emit s).supply.temps b has ys) :
    (c.eval C.fill C.turns >>= fun v => Exec.choose v x y).Sim C σ m fun w σ' m' =>
      m.Passed C.code s.temps a post σ' m' ∧
        (has → m'.regs (.temp (c.emit s).supply.temps) = some w) := by
  have pc := Typed.emit_placed c s h hV
  refine .bind (hc s h hV hw (hm.eq (List.append_assoc _ _ post))) ?_
  rintro v σ₁ m₁ ⟨first, hv⟩
  exact .behind (.branching first.place (hv (ht ▸ Ty.hasValue_bool)) hx hy) first pc.temps pc.slots

namespace Node.Answers

theorem constant {c : Constant} : (Node.constant c).Answers C := by
  intro type V a b s σ m post _ _ _ hm
  exact (Constant.emit_sim hm).mono fun _ _ _ h => ⟨h.1, fun _ => h.2⟩

theorem «variable» {k : Nat} {name : String} : (Node.variable k name).Answers C := by
  intro type V a b s σ m post _ _ _ hm
  refine (Exec.Sim.location hm).mono ?_
  rintro v _ _ ⟨rfl, rfl, hv⟩
  exact ⟨.start hm, fun _ => hv⟩

theorem addressOf (he : e.Answers C) : (Node.addressOf e).Answers C := by
  intro type V a b s σ m post h hV hw hm
  refine (he s h hV hw.1 hm).mono ?_
  rintro v σ' m' ⟨passed, hv⟩
  exact ⟨passed, fun _ => hv (Ty.hasValue_of_reference hw.2.1)⟩

theorem dereference (he : e.Answers C) : (Node.dereference e).Answers C := by
  intro type V a b s σ m post h hV hw hm
  obtain ⟨we, pointed, hp, -⟩ := hw
  refine (he s h hV we hm).mono ?_
  rintro v σ' m' ⟨passed, hv⟩
  exact ⟨passed, fun _ => hv (hp ▸ Ty.hasValue_pointerTo)⟩

theorem cast (he : e.Answers C) : (Node.cast e).Answers C := by
  intro type V a b s σ m post h hV hw hm
  refine (he s h hV hw.1 hm).mono ?_
  rintro v σ' m' ⟨passed, hv⟩
  exact ⟨passed, fun hasValue => hv (hw.2 ▸ hasValue)⟩

/-- The operand is run, and then the operation. -/
theorem unary {op : UnaryOp} (he : e.Answers C) : (Node.unary op e).Answers C := by
  intro type V a b s σ m post h hV hw hm
  obtain ⟨we, o, ho, hop, hp, -⟩ := hw
  have placed := Typed.emit_placed e s h hV
  refine .bind (he s h hV we (hm.eq (List.append_assoc _ _ post))) ?_
  rintro x σ₁ m₁ ⟨passed, hx⟩
  have hx := hx (Builtin.hasValue_unary ho hop hp)
  refine .named passed.place (by rw [Machine.react, hx]; rfl) ?_
  intro v hv
  exact ⟨passed.trans (.put passed.place le_rfl) placed.temps placed.slots,
    fun _ => Machine.put_self⟩

/-- The operands are run from left to right. -/
theorem binary {op : BinaryOp} {u : Ty} (hx : x.Answers C) (hy : y.Answers C) :
    (Node.binary op x y u).Answers C := by
  intro type V a b s σ m post h hV hw hm
  obtain ⟨mid, sx, sy⟩ := h
  obtain ⟨wx, wy, o, ho, hop, hp, -⟩ := hw
  obtain ⟨tx, ty⟩ := Builtin.hasValue_binary ho hop hp
  have px := Typed.emit_placed x s sx hV
  have py := Typed.emit_placed y (x.emit s).supply sy (px.lt hV)
  rw [Node.emit_binary] at hm
  refine .bind (hx s sx hV wx (hm.eq (List.append_assoc _ _ post))) ?_
  rintro v σ₁ m₁ ⟨first, hv⟩
  refine .bind (hy _ sy (px.lt hV) wy (first.place.eq (List.append_assoc _ _ post))) ?_
  rintro w σ₂ m₂ ⟨second, hw⟩
  have both := first.trans second px.temps px.slots
  have hv : m₂.regs (x.emit s).value = some v := (second.kept _ px.value).trans (hv tx)
  refine .named second.place (by rw [Machine.react, hv, hw ty]; rfl) ?_
  intro u _
  exact ⟨both.trans (.put second.place le_rfl) (px.temps.trans py.temps)
    (px.slots.trans py.slots), fun _ => Machine.put_self⟩

/-- The second operand is an arm, and the other arm gives the value that the first one decides. -/
theorem logical {op : LogicalOp} (hx : x.Answers C) (hy : y.Answers C) :
    (Node.logical op x y).Answers C := by
  intro type V a b s σ m post h hV hw hm
  obtain ⟨mid, sx, sy⟩ := h
  obtain ⟨wx, wy, tx, ty, -⟩ := hw
  have px := Typed.emit_placed x s sx hV
  have hasValue : y.type.HasValue := ty ▸ Ty.hasValue_bool
  cases op with
  | and =>
    have py := Typed.emit_placed y (forArms (x.emit s).supply) sy (px.lt hV)
    rw [Node.emit_and] at hm ⊢
    exact hx.branching sx hV wx tx hm (hy.given sy (px.lt hV) wy hasValue (Nat.le_succ _))
      (.known (Nat.le_of_succ_le py.temps))
  | or =>
    rw [Node.emit_or] at hm ⊢
    exact hx.branching sx hV wx tx hm (.known (Nat.le_succ _))
      (hy.given sy (px.lt hV) wy hasValue (Nat.le_add_right _ 2))

/-- So are the two sides of an assignment, before the store. -/
theorem assign (hx : x.Answers C) (hy : y.Answers C) : (Node.assign x y).Answers C := by
  intro type V a b s σ m post h hV hw hm
  obtain ⟨mid, sx, sy⟩ := h
  obtain ⟨wx, wy, tx, -, ty, -⟩ := hw
  have px := Typed.emit_placed x s sx hV
  rw [Node.emit_assign] at hm
  refine .bind (hx s sx hV wx (hm.eq (List.append_assoc _ _ post))) ?_
  rintro v σ₁ m₁ ⟨first, hv⟩
  refine .bind (hy _ sy (px.lt hV) wy (first.place.eq (List.append_assoc _ _ post))) ?_
  rintro w σ₂ m₂ ⟨second, hw⟩
  have both := first.trans second px.temps px.slots
  have hv : m₂.regs (x.emit s).value = some v :=
    (second.kept _ px.value).trans (hv (Ty.hasValue_of_reference tx))
  cases void : x.type.isVoid with
  | true => exact .fail
  | false =>
    have hasValue : y.type.HasValue := by
      rw [ty void]
      exact Ty.hasValue_of_not_void ((Ty.isVoid_bare _).trans void)
    refine .bind (.store (t := s.temps) (a := a) second.place hv (hw hasValue)) ?_
    rintro _ σ₃ m₃ ⟨stored, regs⟩
    exact .pure ⟨both.trans stored le_rfl le_rfl, fun _ => regs ▸ hv⟩

/-- A call is not run. -/
theorem call {callee : Callee} {es : List Typed} : (Node.call callee es).Answers C :=
  fun _ _ _ _ _ _ _ _ _ _ _ _ => .fail

/-- The arm is run if the condition holds. -/
theorem conditional_none (hc : c.Answers C) (ht : t.Answers C) :
    (Node.conditional c t none).Answers C := by
  intro type V a b s σ m post h hV hw hm
  obtain ⟨mid, sc, st⟩ := h
  obtain ⟨wc, wt, tc, rfl⟩ := hw
  have pc := Typed.emit_placed c s sc hV
  rw [Node.emit_conditional_none] at hm ⊢
  refine hc.branching sc hV wc tc hm ?_ ?_
  · intro σ₁ m₁ rest hm₁
    refine .bind (ht _ st (pc.lt hV) wt (hm₁.eq (List.append_assoc _ _ rest))) ?_
    rintro _ σ₂ m₂ ⟨arm, -⟩
    exact .pure ⟨arm.mono (Nat.le_succ _) le_rfl, fun h => (Ty.not_hasValue_void h).elim⟩
  · intro σ₁ m₁ rest hm₁
    exact .pure ⟨.start hm₁, fun h => (Ty.not_hasValue_void h).elim⟩

/-- One of the arms is run. -/
theorem conditional_some (hc : c.Answers C) (ht : t.Answers C) (he : e.Answers C) :
    (Node.conditional c t (some e)).Answers C := by
  intro type V a b s σ m post h hV hw hm
  obtain ⟨mid, mid', sc, st, se⟩ := h
  obtain ⟨wc, wt, we, tc, tt, te, unflagged⟩ := hw
  have pc := Typed.emit_placed c s sc hV
  have pt := Typed.emit_placed t (forArms (c.emit s).supply) st (pc.lt hV)
  rw [Node.emit_conditional_some] at hm ⊢
  refine hc.branching sc hV wc tc hm (ht.arm st (pc.lt hV) wt tt unflagged (Nat.le_succ _)) ?_
  intro σ₁ m₁ rest hm₁
  refine (he.arm se (pt.lt (pc.lt hV)) we te unflagged (Nat.le_of_succ_le pt.temps) hm₁).mono ?_
  rintro w σ₂ m₂ ⟨arm, hw⟩
  exact ⟨arm.mono le_rfl pt.slots, hw⟩

/-- A block without a value ends in `return` or is worth nothing. -/
theorem block_none (hss : TypedStmt.AnswersAll C ss) : (Node.block ss none).Answers C := by
  intro type V a b s σ m post h hV hw hm
  obtain ⟨wss, ends⟩ := hw
  rw [Node.emit_block_none] at hm ⊢
  have sim : (Node.block ss none).eval C.fill C.turns type |>.Sim C σ m
      fun _ σ' m' => m.Passed C.code s.temps a post σ' m' :=
    .bind (hss s h hV wss hm) fun _ _ _ passed => .pure passed
  rcases ends with diverges | rfl
  · exact sim.never fun _ _ => Node.not_next_of_diverges diverges
  · exact sim.mono fun _ _ _ passed => ⟨passed, fun h => (Ty.not_hasValue_void h).elim⟩

theorem block_some (hss : TypedStmt.AnswersAll C ss) (hr : r.Answers C) :
    (Node.block ss (some r)).Answers C := by
  intro type V a b s σ m post h hV hw hm
  obtain ⟨mid, sss, sr⟩ := h
  obtain ⟨wss, wr, tr⟩ := hw
  obtain ⟨pss, hV'⟩ := TypedStmt.emitAll_tidy ss s sss hV
  refine .bind (hss s sss hV wss (hm.eq (List.append_assoc _ _ post))) ?_
  intro _ σ₁ m₁ first
  rw [tr]
  exact .behind (hr _ sr hV' wr first.place) first pss.names.temps pss.names.slots

end Node.Answers

/-! ### Statements -/

namespace TypedStmt.Answers

theorem expr (he : e.Answers C) : (TypedStmt.expr e).Answers C := by
  intro V a b s σ m post h hV hw hm
  rw [TypedStmt.emit_expr] at hm
  exact .bind (he s h hV hw hm) fun _ _ _ passed => .pure passed.1

theorem define_none {k : Nat} {name : String} {type : Ty} :
    (TypedStmt.define k name type none).Answers C := by
  intro V a b s σ m post h _ _ hm
  exact .allocate hm (Nat.le_of_eq h.1.symm)

/-- The first value is run and stored. -/
theorem define_some {k : Nat} {name : String} {type : Ty} (he : e.Answers C) :
    (TypedStmt.define k name type (some e)).Answers C := by
  intro V a b s σ m post h hV hw hm
  obtain ⟨se, -⟩ := h
  obtain ⟨we, ht, te⟩ := hw
  have pe := Typed.emit_placed e s se hV
  have hasValue : e.type.HasValue := by
    rw [te]
    exact Ty.hasValue_of_not_void ((Ty.isVoid_bare type).trans ht)
  rw [TypedStmt.emit_define] at hm
  refine .bind (.allocate (t := s.temps) hm pe.slots) ?_
  intro _ σ₁ m₁ first
  refine .bind (he s se hV we (first.place.eq (List.append_assoc _ _ post))) ?_
  rintro v σ₂ m₂ ⟨second, hv⟩
  have both := first.trans second le_rfl le_rfl
  refine .bind (.location second.place) ?_
  rintro x _ _ ⟨rfl, rfl, hx⟩
  refine (Exec.Sim.store (t := s.temps) (a := a) second.place hx (hv hasValue)).mono ?_
  rintro _ σ₃ m₃ ⟨stored, -⟩
  exact both.trans stored le_rfl le_rfl

theorem ret_none : (TypedStmt.ret none).Answers C := by
  intro V a b s σ m post _ _ _ hm r hr
  cases hr
  show m.Runs C.fill C.code (if C.result.isVoid then none else none) σ.memory
  rw [ite_self, ← hm.memory]
  exact .ends hm.step_eq

/-- The value is run, and the code ends with it. -/
theorem ret_some (he : e.Answers C) : (TypedStmt.ret (some e)).Answers C := by
  intro V a b s σ m post h hV hw hm
  obtain ⟨we, value, void⟩ := hw
  refine .bind (he s h hV we (hm.eq (List.append_assoc _ _ post))) ?_
  rintro v σ' m' ⟨passed, hv⟩ r hr
  cases hr
  have same : C.result.isVoid = e.type.isVoid := by
    cases hr : C.result.isVoid with
    | true => exact (void hr).symm
    | false => rw [value hr, hr]
  show m'.Runs C.fill C.code (if C.result.isVoid then none else some v) σ'.memory
  rw [same]
  exact passed.place.returns fun h => hv (Ty.hasValue_of_not_void h)

/-- By induction on the turns. -/
theorem loop (hc : c.Answers C) (hb : t.Answers C) : (TypedStmt.loop c t).Answers C := by
  intro V a b s σ m post h hV hw hm
  obtain ⟨mid, sc, sb⟩ := h
  obtain ⟨wc, wb, tc⟩ := hw
  have pc := Typed.emit_placed c ⟨s.temps, s.labels + 2⟩ sc hV
  rw [TypedStmt.emit_loop] at hm
  simp only [List.cons_append, List.append_assoc, List.nil_append] at hm
  refine .silent hm.step_eq (.mono (.loop (a := a) pc.temps hm.suffix ?_ ?_ C.turns hm.tail)
    fun _ _ _ passed => ⟨passed.place, passed.kept⟩)
  · intro σ₁ m₁ rest hm₁
    refine (hc _ sc hV wc hm₁).mono ?_
    rintro v σ₂ m₂ ⟨passed, hv⟩
    exact ⟨passed, hv (tc ▸ Ty.hasValue_bool)⟩
  · intro σ₁ m₁ rest hm₁
    refine (hb _ sb (pc.lt hV) wb hm₁).mono ?_
    rintro _ σ₂ m₂ ⟨passed, -⟩
    exact passed.mono (Nat.le_succ_of_le pc.temps) pc.slots

end TypedStmt.Answers

/-- A statement that returns ends the rest. -/
theorem TypedStmt.AnswersAll.cons {t : TypedStmt} (ht : t.Answers C)
    (hss : TypedStmt.AnswersAll C ss) : TypedStmt.AnswersAll C (t :: ss) := by
  intro V a b s σ m post h hV hw hm
  obtain ⟨mid, st, sss⟩ := h
  have tidy := TypedStmt.emit_tidy t s st hV
  refine .bind (ht s st hV hw.1 (hm.eq (List.append_assoc _ _ post))) ?_
  intro _ σ₁ m₁ first
  refine (hss _ sss (st.extend_lt tidy.names.slots hV) hw.2 first.place).mono ?_
  intro _ σ₂ m₂ others
  exact first.trans others tidy.names.temps tidy.names.slots

end Trees

/-! ### Trees -/

mutual

/-- By induction on the tree: the machine answers every expression. -/
theorem Typed.emit_sim : ∀ e : Typed, e.Answers C
  | .mk _ n => .mk n.emit_sim

/-- By induction on the tree, one lemma for each constructor. -/
theorem Node.emit_sim : ∀ n : Node, n.Answers C
  | .constant _ => .constant
  | .variable _ _ => .variable
  | .addressOf e => .addressOf e.emit_sim
  | .dereference e => .dereference e.emit_sim
  | .cast e => .cast e.emit_sim
  | .unary _ e => .unary e.emit_sim
  | .binary _ x y _ => .binary x.emit_sim y.emit_sim
  | .logical _ x y => .logical x.emit_sim y.emit_sim
  | .assign x y => .assign x.emit_sim y.emit_sim
  | .call _ _ => .call
  | .conditional c t none => .conditional_none c.emit_sim t.emit_sim
  | .conditional c t (some e) => .conditional_some c.emit_sim t.emit_sim e.emit_sim
  | .block ss none => .block_none (TypedStmt.emitAll_sim ss)
  | .block ss (some r) => .block_some (TypedStmt.emitAll_sim ss) r.emit_sim

theorem TypedStmt.emit_sim : ∀ t : TypedStmt, t.Answers C
  | .expr e => .expr e.emit_sim
  | .define _ _ _ none => .define_none
  | .define _ _ _ (some e) => .define_some e.emit_sim
  | .ret none => .ret_none
  | .ret (some e) => .ret_some e.emit_sim
  | .loop c body => .loop c.emit_sim body.emit_sim

theorem TypedStmt.emitAll_sim : ∀ ss : List TypedStmt, TypedStmt.AnswersAll C ss
  | [] => fun _ _ _ _ _ _ _ _ _ _ hm => .pure (.start hm)
  | t :: ss => .cons t.emit_sim (TypedStmt.emitAll_sim ss)

end

/-! ### Functions -/

namespace Function

variable {fill : Nat → Ty → Option Value} {turns : Nat} {F : Callee → Prop} {st : Structs}
  {f : Function}

theorem emit_unambiguous (h : f.WellTyped st) (hs : f.Scoped F) : Unambiguous f.emit.events := by
  obtain ⟨s, b, tidy⟩ := emit_tidy h hs
  intro l
  rw [tidy.labelled.set]
  split_ifs
  · exact le_rfl
  · exact Nat.zero_le 1

/-- The machine ends as the tree does. -/
theorem runs_of_eval (h : f.WellTyped st) (hs : f.Scoped F) {memory memory' : Memory}
    {arguments : List Value} {v : Option Value}
    (he : f.eval fill turns memory arguments = some (v, memory')) :
    (f.machine memory arguments).Runs fill f.emit.events v memory' := by
  obtain ⟨r, hr, hv⟩ := Option.map_eq_some_iff.mp he
  obtain ⟨b, hb⟩ := hs.body
  have start : (f.machine memory arguments).At f.emit.events ((f.body.emit ⟨0, 0⟩).events ++ _)
      (f.start memory arguments) :=
    ⟨emit_events h, emit_events h ▸ List.suffix_refl _, rfl, fun _ => rfl⟩
  let C : Setting := ⟨f.emit.events, emit_unambiguous h hs, st, f.result, F, fill, turns⟩
  have answered := Typed.emit_sim (C := C) f.body ⟨0, 0⟩ hb (fun k => List.mem_range.mp) h.body
    start r hr
  cases r with
  | returned w memory'' =>
    cases hv
    exact answered
  | next w σ =>
    cases hv
    obtain ⟨m', ⟨passed, hw⟩, back⟩ := answered
    refine back _ _ ?_
    have place := passed.place
    rw [if_neg fun hd => Typed.not_next_of_diverges hd hr] at place
    exact place.returns fun hvoid => hw (h.type ▸ Ty.hasValue_of_not_void hvoid)

end Function

/-- **Code does what its tree does.**  Where running the tree of a function of an accepted module
ends, its code, run on the same memory and arguments, ends with the same value and the same memory,
which keeps all stores in their order, and in no other way. -/
theorem Module.build_refines {fill : Nat → Ty → Option Value} {turns : Nat} {limits : Limits}
    {name file : String} {tree : ModuleSyntax} {m : Module} {scope : Scope}
    (h : (build (Scope.standard limits).push name file tree).outcome = .ok (m, scope))
    {f : Function}
    (hf : f ∈ m.functions) {memory memory' : Memory} {arguments : List Value} {v : Option Value}
    (he : f.eval fill turns memory arguments = some (v, memory')) :
    ∀ w memory'', (f.machine memory arguments).Runs fill f.emit.events w memory'' ↔
      w = v ∧ memory'' = memory' := by
  obtain ⟨ht, hs⟩ := build_functions h f hf
  have runs := Function.runs_of_eval ht hs he
  intro w memory''
  constructor
  · exact runs.unique
  · rintro ⟨rfl, rfl⟩
    exact runs

/-- The function of the module `pick`, called with 3, stores 9 in its parameter and gives back 1. -/
theorem Module.build_refines_pick :
    ∃ m scope f, (build (Scope.standard .standard).push "pick" "pick.g" .pick).outcome =
        .ok (m, scope) ∧ f ∈ m.functions ∧
      (f.machine ⟨[], []⟩ [.int 3]).Runs (fun _ _ => none) f.emit.events (some (.int 1))
        ⟨[some (.int 9)], [(0, .int 9)]⟩ := by
  have run : (build (Scope.standard .standard).push "pick" "pick.g" .pick).outcome.toOption.map
      (fun r => r.1.functions.map fun f => f.eval (fun _ _ => none) 2 ⟨[], []⟩ [.int 3]) =
        some [some (some (.int 1), ⟨[some (.int 9)], [(0, .int 9)]⟩)] := by
    decide +kernel
  obtain ⟨⟨m, scope⟩, accepted, hl⟩ := eq_ok_of_map run
  obtain ⟨f, hf, he⟩ := List.mem_map.mp (hl ▸ List.mem_singleton_self _)
  exact ⟨m, scope, f, accepted, hf, (Module.build_refines accepted hf he _ _).mpr ⟨rfl, rfl⟩⟩

end Gauge
