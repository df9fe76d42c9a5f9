import Gauge.Code
import Gauge.Proofs.Typed.Slots

/-!
# Proofs — the layout of code

What the events of a tree look like, one equation for each form of expression and statement, and how
the places to jump to and the names of values are spread over them.
-/

namespace Gauge

namespace Code

/-- The code around the arms of a branch: the first arm falls through, the second is jumped to, and
both go on behind the last label. -/
def branching (id : ValueId) (type : Ty) (condition : ValueId) (l : Nat)
    (first second : List Event) :
    List Event :=
  .branch id type condition ⟨l⟩ ⟨l + 1⟩ ::
    (first ++ .jump ⟨l + 1⟩ :: .label ⟨l⟩ :: (second ++ [.jump ⟨l + 1⟩, .label ⟨l + 1⟩]))

/-- What is left behind the head of a branch, which takes a temporary and two labels. -/
def forArms (s : Supply) : Supply := ⟨s.temps + 1, s.labels + 2⟩

/-- The event that gives a branch the value of an arm, where the arm has one. -/
def give (has : Bool) (id value : ValueId) : List Event :=
  if has then [.branchResult id value] else []

end Code

open Code

namespace Step

variable {type : Ty} {value : ValueId} {st : Step} {sts : List Step} {s : Supply}

theorem emitAll_some {e : Event}
    (h : st.edge.action.event? type st.edge.destination (.temp s.temps) value = some e) :
    Step.emitAll type value (st :: sts) s =
      let r := Step.emitAll st.edge.destination (.temp s.temps) sts ⟨s.temps + 1, s.labels⟩
      ⟨r.value, e :: r.events, r.supply⟩ := by
  simp only [Step.emitAll, Emit.run_bind, Emit.newTemp, h]
  rfl

theorem emitAll_none
    (h : st.edge.action.event? type st.edge.destination (.temp s.temps) value = none) :
    Step.emitAll type value (st :: sts) s =
      Step.emitAll st.edge.destination value sts ⟨s.temps + 1, s.labels⟩ := by
  simp only [Step.emitAll, Emit.run_bind, Emit.newTemp, h]
  rfl

end Step

theorem Typed.emit_mk {f : Facts} {n : Node} {s : Supply} :
    (Typed.mk f n).emit s =
      let v := n.emit f.type s
      let c := Step.emitAll f.type v.value f.chain.steps v.supply
      ⟨c.value, v.events ++ c.events, c.supply⟩ := rfl

section Node

variable {type : Ty} {s : Supply} {a b : Typed}

theorem Node.emit_unary {op : UnaryOp} {e : Typed} :
    (Node.unary op e).emit type s =
      let r := e.emit s
      ⟨.temp r.supply.temps, r.events ++ [.unary (.temp r.supply.temps) op r.value type],
        ⟨r.supply.temps + 1, r.supply.labels⟩⟩ := rfl

theorem Node.emit_binary {op : BinaryOp} {t : Ty} :
    (Node.binary op a b t).emit type s =
      let l := a.emit s
      let r := b.emit l.supply
      ⟨.temp r.supply.temps,
        l.events ++ (r.events ++ [.binary (.temp r.supply.temps) op l.value r.value t type]),
        ⟨r.supply.temps + 1, r.supply.labels⟩⟩ := rfl

theorem Node.emit_and :
    (Node.logical .and a b).emit type s =
      let c := a.emit s
      let id := ValueId.temp c.supply.temps
      let r := b.emit (forArms c.supply)
      let known := ValueId.temp r.supply.temps
      ⟨id, c.events ++ branching id type c.value c.supply.labels
          (r.events ++ [.branchResult id r.value])
          [.literal known 0 type, .branchResult id known],
        ⟨r.supply.temps + 1, r.supply.labels⟩⟩ := by
  simp only [branching, List.append_assoc]
  rfl

theorem Node.emit_or :
    (Node.logical .or a b).emit type s =
      let c := a.emit s
      let id := ValueId.temp c.supply.temps
      let known := ValueId.temp (c.supply.temps + 1)
      let r := b.emit ⟨c.supply.temps + 2, c.supply.labels + 2⟩
      ⟨id, c.events ++ branching id type c.value c.supply.labels
          [.literal known 1 type, .branchResult id known]
          (r.events ++ [.branchResult id r.value]),
        r.supply⟩ := by
  simp only [branching, List.append_assoc]
  rfl

theorem Node.emit_assign :
    (Node.assign a b).emit type s =
      let l := a.emit s
      let r := b.emit l.supply
      ⟨l.value, l.events ++ (r.events ++ [.store l.value r.value]), r.supply⟩ := rfl

theorem Node.emit_call {c : Callee} {es : List Typed} :
    (Node.call c es).emit type s =
      let r := Typed.emitAll es s
      ⟨.temp r.supply.temps, r.events ++ [.call (.temp r.supply.temps) c r.value],
        ⟨r.supply.temps + 1, r.supply.labels⟩⟩ := rfl

/-- The code of a conditional with one arm. -/
theorem Node.emit_conditional_none {c t : Typed} :
    (Node.conditional c t none).emit type s =
      let r := c.emit s
      let id := ValueId.temp r.supply.temps
      let x := t.emit (forArms r.supply)
      ⟨id, r.events ++ branching id type r.value r.supply.labels
          (x.events ++ give (!type.isVoid && t.producesValue) id x.value) [],
        x.supply⟩ := by
  cases h : !type.isVoid && t.producesValue with
  | true | false =>
    simp only [branching, give, List.append_assoc, Node.emit, h]
    rfl

/-- The code of a conditional with two arms. -/
theorem Node.emit_conditional_some {c t e : Typed} :
    (Node.conditional c t (some e)).emit type s =
      let r := c.emit s
      let id := ValueId.temp r.supply.temps
      let x := t.emit (forArms r.supply)
      let y := e.emit x.supply
      ⟨id, r.events ++ branching id type r.value r.supply.labels
          (x.events ++ give (!type.isVoid && t.producesValue) id x.value)
          (y.events ++ give (!type.isVoid && e.producesValue) id y.value),
        y.supply⟩ := by
  cases h : !type.isVoid && t.producesValue <;> cases h' : !type.isVoid && e.producesValue
  all_goals
    simp only [branching, give, List.append_assoc, Node.emit, h, h']
    rfl

theorem Node.emit_block_none {ss : List TypedStmt} :
    (Node.block ss none).emit type s =
      let r := TypedStmt.emitAll ss s
      ⟨.temp r.supply.temps, r.events, ⟨r.supply.temps + 1, r.supply.labels⟩⟩ := by
  simp only [Node.emit, Emit.run_bind]
  rw [Emitted.mk.injEq]
  exact ⟨rfl, List.append_nil _, rfl⟩

theorem Node.emit_block_some {ss : List TypedStmt} {e : Typed} :
    (Node.block ss (some e)).emit type s =
      let r := TypedStmt.emitAll ss s
      let x := e.emit r.supply
      ⟨x.value, r.events ++ x.events, x.supply⟩ := rfl

end Node

theorem Typed.emitAll_cons {e : Typed} {es : List Typed} {s : Supply} :
    Typed.emitAll (e :: es) s =
      let x := e.emit s
      let r := Typed.emitAll es x.supply
      ⟨x.value :: r.value, x.events ++ r.events, r.supply⟩ := by
  simp only [Typed.emitAll, Emit.run_bind, Emit.run_pure, List.append_nil]

namespace TypedStmt

variable {s : Supply} {e : Typed}

theorem emit_expr : (TypedStmt.expr e).emit s = let r := e.emit s; ⟨(), r.events, r.supply⟩ := by
  simp only [TypedStmt.emit, Emit.run_bind, Emit.run_pure, List.append_nil]

theorem emit_define {k : Nat} {name : String} {t : Ty} :
    (TypedStmt.define k name t (some e)).emit s =
      let r := e.emit s
      ⟨(), .allocate (.slot k) t name :: (r.events ++ [.store (.slot k) r.value]), r.supply⟩ := rfl

theorem emit_ret :
    (TypedStmt.ret (some e)).emit s =
      let r := e.emit s
      ⟨(), r.events ++ [.ret (if e.type.isVoid then none else some r.value)], r.supply⟩ := rfl

theorem emit_loop {c body : Typed} :
    (TypedStmt.loop c body).emit s =
      let r := c.emit ⟨s.temps, s.labels + 2⟩
      let x := body.emit ⟨r.supply.temps + 1, r.supply.labels⟩
      let id := ValueId.temp r.supply.temps
      ⟨(), .label ⟨s.labels⟩ :: (r.events ++
          .branch id body.type r.value ⟨s.labels + 1⟩ ⟨s.labels + 1⟩ ::
            (x.events ++ [.jump ⟨s.labels⟩, .label ⟨s.labels + 1⟩])),
        x.supply⟩ := rfl

theorem emitAll_cons {st : TypedStmt} {ss : List TypedStmt} :
    TypedStmt.emitAll (st :: ss) s =
      let x := st.emit s
      let r := TypedStmt.emitAll ss x.supply
      ⟨(), x.events ++ r.events, r.supply⟩ := rfl

end TypedStmt

/-! ### Names and labels -/

/-- The value that an event names. -/
def Event.introduces? : Event → Option ValueId
  | .literal id _ _ | .null id _ | .allocate id _ _ | .load id _ _ | .convert _ id _ _ _
  | .nonNull id _ | .call id _ _ | .binary id _ _ _ _ _ | .unary id _ _ _
  | .branch id _ _ _ _ => some id
  | .store _ _ | .branchResult _ _ | .label _ | .jump _ | .ret _ => none

/-- The label that is set. -/
def Event.sets? : Event → Option Label
  | .label here => some here
  | _ => none

/-- The labels that an event goes to. -/
def Event.targets : Event → List Label
  | .jump target => [target]
  | .branch _ _ _ otherwise after => [otherwise, after]
  | _ => []

namespace Code

/-- The values that some code names, in order. -/
def introduced (code : List Event) : List ValueId := code.filterMap Event.introduces?

/-- The labels that some code sets, in order. -/
def labels (code : List Event) : List Label := code.filterMap Event.sets?

theorem introduced_append (xs ys : List Event) :
    introduced (xs ++ ys) = introduced xs ++ introduced ys := List.filterMap_append

theorem labels_append (xs ys : List Event) : labels (xs ++ ys) = labels xs ++ labels ys :=
  List.filterMap_append

/-- How many temporaries and variables there are so far. -/
structure Tally where
  temps : Nat
  slots : Nat

end Code

open Code

/-- The value is named between two tallies. -/
def ValueId.Between (lo hi : Tally) : ValueId → Prop
  | .temp t => lo.temps ≤ t ∧ t < hi.temps
  | .slot k => lo.slots ≤ k ∧ k < hi.slots

theorem ValueId.Between.mono {lo hi lo' hi' : Tally} {id : ValueId} (h : id.Between lo hi)
    (ht : lo'.temps ≤ lo.temps) (hs : lo'.slots ≤ lo.slots) (ht' : hi.temps ≤ hi'.temps)
    (hs' : hi.slots ≤ hi'.slots) : id.Between lo' hi' := by
  cases id with
  | temp t => exact ⟨ht.trans h.1, Nat.lt_of_lt_of_le h.2 ht'⟩
  | slot k => exact ⟨hs.trans h.1, Nat.lt_of_lt_of_le h.2 hs'⟩

/-- The code names values between two tallies only, each of them at most once. -/
structure Code.Names (lo hi : Tally) (code : List Event) : Prop where
  temps : lo.temps ≤ hi.temps
  slots : lo.slots ≤ hi.slots
  nodup : (introduced code).Nodup
  between : ∀ id ∈ introduced code, id.Between lo hi

namespace Code.Names

variable {lo mid hi : Tally} {xs ys : List Event}

/-- What is named one after the other. -/
theorem append (hx : Names lo mid xs) (hy : Names mid hi ys) : Names lo hi (xs ++ ys) where
  temps := hx.temps.trans hy.temps
  slots := hx.slots.trans hy.slots
  nodup := by
    rw [introduced_append]
    refine List.nodup_append.mpr ⟨hx.nodup, hy.nodup, ?_⟩
    rintro id hid _ hid' rfl
    have h := hx.between id hid
    have h' := hy.between id hid'
    cases id with
    | temp t | slot k => exact absurd h.2 (Nat.not_lt.mpr h'.1)
  between := by
    intro id hid
    rw [introduced_append] at hid
    rcases List.mem_append.mp hid with hid | hid
    · exact (hx.between id hid).mono le_rfl le_rfl hy.temps hy.slots
    · exact (hy.between id hid).mono hx.temps hx.slots le_rfl le_rfl

/-- Code that names nothing; temporaries may be skipped. -/
theorem nothing (h : introduced xs = []) (ht : lo.temps ≤ hi.temps) (hs : lo.slots ≤ hi.slots) :
    Names lo hi xs where
  temps := ht
  slots := hs
  nodup := by
    rw [h]
    exact List.nodup_nil
  between := by
    rw [h]
    exact fun id hid => by cases hid

/-- An event that names the next temporary. -/
theorem temp {e : Event} {t k : Nat} (h : e.introduces? = some (.temp t)) :
    Names ⟨t, k⟩ ⟨t + 1, k⟩ [e] := by
  have hi : introduced [e] = [.temp t] := by simp [introduced, h]
  refine ⟨Nat.le_succ t, le_rfl, ?_, ?_⟩
  · rw [hi]
    exact List.pairwise_singleton _ _
  · intro id hid
    rw [hi] at hid
    obtain rfl := List.mem_singleton.mp hid
    exact ⟨le_rfl, Nat.lt_succ_self t⟩

/-- Storage is named before that of the variables in its first value. -/
theorem allocate {t k : Nat} {type : Ty} {name : String} (h : Names lo ⟨t, k⟩ xs) :
    Names lo ⟨t, k + 1⟩ (.allocate (.slot k) type name :: xs) := by
  have hi : introduced (.allocate (.slot k) type name :: xs) = .slot k :: introduced xs := rfl
  refine ⟨h.temps, Nat.le_succ_of_le h.slots, ?_, ?_⟩
  · rw [hi, List.nodup_cons]
    refine ⟨fun hid => ?_, h.nodup⟩
    exact absurd (h.between _ hid).2 (Nat.lt_irrefl k)
  · intro id hid
    rw [hi] at hid
    rcases List.mem_cons.mp hid with rfl | hid
    · exact ⟨h.slots, Nat.lt_succ_self k⟩
    · exact (h.between id hid).mono le_rfl le_rfl le_rfl (Nat.le_succ k)

/-- A branch names one value before its arms. -/
theorem branching {t k l : Nat} {type : Ty} {condition : ValueId}
    (hx : Names ⟨t + 1, k⟩ mid xs) (hy : Names mid hi ys) :
    Names ⟨t, k⟩ hi (Code.branching (.temp t) type condition l xs ys) := by
  have labels : ∀ m : Tally, Names m m [.jump ⟨l + 1⟩, .label ⟨l⟩] :=
    fun m => nothing rfl le_rfl le_rfl
  have last : ∀ m : Tally, Names m m [.jump ⟨l + 1⟩, .label ⟨l + 1⟩] := fun m =>
    nothing rfl le_rfl le_rfl
  have h := hx.append ((labels mid).append (hy.append (last hi)))
  exact (temp rfl).append h

end Code.Names

/-- The code sets each of the labels from `a` up to `b` once, and goes to no other label. -/
structure Code.Labelled (a b : Nat) (code : List Event) : Prop where
  le : a ≤ b
  set : ∀ l : Label, (labels code).count l = if a ≤ l.number ∧ l.number < b then 1 else 0
  named : ∀ e ∈ code, ∀ l ∈ e.targets, a ≤ l.number ∧ l.number < b

namespace Code.Labelled

variable {a b c l : Nat} {xs ys : List Event}

/-- What is labelled one after the other. -/
theorem append (hx : Labelled a b xs) (hy : Labelled b c ys) : Labelled a c (xs ++ ys) where
  le := hx.le.trans hy.le
  set := by
    intro x
    have h₁ := hx.le
    have h₂ := hy.le
    rw [labels_append, List.count_append, hx.set, hy.set]
    split_ifs <;> omega
  named := by
    intro e he x hl
    rcases List.mem_append.mp he with he | he
    · exact ⟨(hx.named e he x hl).1, Nat.lt_of_lt_of_le (hx.named e he x hl).2 hy.le⟩
    · exact ⟨hx.le.trans (hy.named e he x hl).1, (hy.named e he x hl).2⟩

/-- Code that has nothing to do with labels. -/
theorem plain (hs : labels xs = []) (ht : ∀ e ∈ xs, e.targets = []) : Labelled a a xs where
  le := le_rfl
  set := by
    intro x
    rw [hs, if_neg (by omega)]
    rfl
  named := by
    intro e he x hx
    rw [ht e he] at hx
    cases hx

theorem event {e : Event} (hs : e.sets? = none) (ht : e.targets = []) : Labelled a a [e] := by
  refine plain ?_ ?_
  · simp [labels, hs]
  · intro e' he'
    obtain rfl := List.mem_singleton.mp he'
    exact ht

/-- Code around which two labels are set, and that may go to them. -/
theorem around {p q : List Label} (h : Labelled (l + 2) b xs) (hx : labels xs = p ++ q)
    (hy : labels ys = p ++ ⟨l⟩ :: (q ++ [⟨l + 1⟩]))
    (ht : ∀ e ∈ ys, e ∈ xs ∨ ∀ x ∈ e.targets, x = ⟨l⟩ ∨ x = ⟨l + 1⟩) : Labelled l b ys where
  le := Nat.le_of_add_right_le h.le
  set := by
    rintro ⟨n⟩
    have hle := h.le
    have hn := h.set ⟨n⟩
    rw [hx, List.count_append] at hn
    rw [hy]
    simp only [List.count_append, List.count_cons, List.count_nil, beq_iff_eq, Label.mk.injEq]
      at hn ⊢
    split_ifs at hn ⊢ <;> omega
  named := by
    intro e he x hx
    have hle := h.le
    rcases ht e he with he | ht
    · have := h.named e he x hx
      omega
    · rcases ht x hx with rfl | rfl
      all_goals
        dsimp only
        omega

/-- The labels of a branch. -/
theorem branching {id condition : ValueId} {type : Ty} (hx : Labelled (l + 2) b xs)
    (hy : Labelled b c ys) : Labelled l c (Code.branching id type condition l xs ys) := by
  refine (hx.append hy).around (labels_append xs ys) ?_ ?_
  · simp [Code.branching, labels, List.filterMap_cons, Event.sets?]
  · intro e he
    simp only [Code.branching, List.mem_cons, List.mem_append, List.not_mem_nil, or_false] at he ⊢
    rcases he with rfl | he | rfl | rfl | he | rfl | rfl
    · exact .inr fun x hx => by simpa [Event.targets] using hx
    · exact .inl (.inl he)
    · exact .inr fun x hx => .inr (by simpa [Event.targets] using hx)
    · exact .inr fun x hx => by cases hx
    · exact .inl (.inr he)
    · exact .inr fun x hx => .inr (by simpa [Event.targets] using hx)
    · exact .inr fun x hx => by cases hx

/-- The labels of a loop. -/
theorem loop {id condition : ValueId} {type : Ty} (hx : Labelled (l + 2) b xs)
    (hy : Labelled b c ys) :
    Labelled l c (.label ⟨l⟩ :: (xs ++ .branch id type condition ⟨l + 1⟩ ⟨l + 1⟩ ::
      (ys ++ [.jump ⟨l⟩, .label ⟨l + 1⟩]))) := by
  refine (hx.append hy).around (p := []) (labels_append xs ys) ?_ ?_
  · simp [labels, List.filterMap_cons, Event.sets?]
  · intro e he
    simp only [List.mem_cons, List.mem_append, List.not_mem_nil, or_false] at he ⊢
    rcases he with rfl | he | rfl | he | rfl | rfl
    · exact .inr fun x hx => by cases hx
    · exact .inl (.inl he)
    · exact .inr fun x hx => .inr (by simpa [Event.targets] using hx)
    · exact .inl (.inr he)
    · exact .inr fun x hx => Or.inl (by simpa [Event.targets] using hx)
    · exact .inr fun x hx => by cases hx

end Code.Labelled

/-! ### The code of a tree -/

/-- A function that is called is one of `F`. -/
def Event.Calls (F : Callee → Prop) : Event → Prop
  | .call _ c _ => F c
  | _ => True

/-- The code uses the names between two supplies, and variables from `a` up to `b`.  It calls
functions of `F`. -/
structure Code.Tidy (F : Callee → Prop) (s : Supply) (a : Nat) (s' : Supply) (b : Nat)
    (code : List Event) : Prop where
  names : Names ⟨s.temps, a⟩ ⟨s'.temps, b⟩ code
  labelled : Labelled s.labels s'.labels code
  calls : ∀ e ∈ code, e.Calls F

variable {F : Callee → Prop}

namespace Code.Tidy

variable {s s₁ s₂ s₃ : Supply} {a b c d : Nat} {xs ys zs : List Event} {e : Event} {type : Ty}

theorem nil : Tidy F s a s a [] :=
  ⟨.nothing rfl le_rfl le_rfl, .plain rfl nofun, nofun⟩

theorem append (hx : Tidy F s a s₁ b xs) (hy : Tidy F s₁ b s₂ c ys) : Tidy F s a s₂ c (xs ++ ys) :=
  ⟨hx.names.append hy.names, hx.labelled.append hy.labelled,
    List.forall_mem_append.mpr ⟨hx.calls, hy.calls⟩⟩

/-- An event behind some code that names nothing and has to do with no label. -/
theorem event (hx : Tidy F s a s₁ b xs) (hi : e.introduces? = none) (hs : e.sets? = none)
    (ht : e.targets = []) (hc : e.Calls F) : Tidy F s a s₁ b (xs ++ [e]) := by
  have hn : Names ⟨s₁.temps, b⟩ ⟨s₁.temps, b⟩ [e] :=
    .nothing (by simp [introduced, hi]) le_rfl le_rfl
  exact hx.append ⟨hn, .event hs ht, List.forall_mem_singleton.mpr hc⟩

/-- An event behind some code that names the next temporary. -/
theorem temp (hx : Tidy F s a s₁ b xs) (hi : e.introduces? = some (.temp s₁.temps))
    (hs : e.sets? = none) (ht : e.targets = []) (hc : e.Calls F) :
    Tidy F s a ⟨s₁.temps + 1, s₁.labels⟩ b (xs ++ [e]) :=
  hx.append ⟨.temp hi, .event hs ht, List.forall_mem_singleton.mpr hc⟩

theorem give {has : Bool} {id value : ValueId} (hx : Tidy F s a s₁ b xs) :
    Tidy F s a s₁ b (xs ++ Code.give has id value) := by
  cases has with
  | true => exact hx.event rfl rfl rfl trivial
  | false => exact hx.append nil

/-- A value of a branch that is known without running anything. -/
theorem known {n : Nat} {id : ValueId} :
    Tidy F s a ⟨s.temps + 1, s.labels⟩ a
      [.literal (.temp s.temps) n type, .branchResult id (.temp s.temps)] := by
  have literal :=
    (nil : Tidy F s a s a []).temp (e := .literal (.temp s.temps) n type) rfl rfl rfl trivial
  exact literal.event rfl rfl rfl trivial

/-- A branch behind its condition. -/
theorem branching {condition : ValueId} (hx : Tidy F s a s₁ b xs)
    (hy : Tidy F (forArms s₁) b s₂ c ys) (hz : Tidy F s₂ c s₃ d zs) :
    Tidy F s a s₃ d (xs ++ Code.branching (.temp s₁.temps) type condition s₁.labels ys zs) := by
  refine hx.append ⟨hy.names.branching hz.names, hy.labelled.branching hz.labelled, ?_⟩
  simp only [Code.branching, List.forall_mem_cons, List.forall_mem_append]
  exact ⟨trivial, hy.calls, trivial, trivial, hz.calls, trivial, trivial, nofun⟩

/-- A loop. -/
theorem loop {condition : ValueId} (hx : Tidy F ⟨s.temps, s.labels + 2⟩ a s₁ b xs)
    (hy : Tidy F ⟨s₁.temps + 1, s₁.labels⟩ b s₂ c ys) :
    Tidy F s a s₂ c (.label ⟨s.labels⟩ :: (xs ++
      .branch (.temp s₁.temps) type condition ⟨s.labels + 1⟩ ⟨s.labels + 1⟩ ::
        (ys ++ [.jump ⟨s.labels⟩, .label ⟨s.labels + 1⟩]))) := by
  have top : Names ⟨s.temps, a⟩ ⟨s.temps, a⟩ [.label ⟨s.labels⟩] := .nothing rfl le_rfl le_rfl
  have last : Names ⟨s₂.temps, c⟩ ⟨s₂.temps, c⟩ [.jump ⟨s.labels⟩, .label ⟨s.labels + 1⟩] :=
    .nothing rfl le_rfl le_rfl
  refine ⟨?_, hx.labelled.loop hy.labelled, ?_⟩
  · exact top.append (hx.names.append ((Names.temp rfl).append (hy.names.append last)))
  · simp only [List.forall_mem_cons, List.forall_mem_append]
    exact ⟨trivial, hx.calls, trivial, hy.calls, trivial, trivial, nofun⟩

/-- Storage and its first value. -/
theorem define {k : Nat} {name : String} {value : ValueId} (hx : Tidy F s a s₁ k xs) :
    Tidy F s a s₁ (k + 1) (.allocate (.slot k) type name :: (xs ++ [.store (.slot k) value])) := by
  have h := hx.event (e := .store (.slot k) value) rfl rfl rfl trivial
  have first : Labelled s.labels s.labels [.allocate (.slot k) type name] := .event rfl rfl
  exact ⟨h.names.allocate, first.append h.labelled, List.forall_mem_cons.mpr ⟨trivial, h.calls⟩⟩

end Code.Tidy

/-- The value is one of those named so far. -/
def ValueId.Below (temps slots : Nat) : ValueId → Prop
  | .temp t => t < temps
  | .slot k => k < slots

theorem ValueId.Below.mono {t k t' k' : Nat} {id : ValueId} (h : id.Below t k) (ht : t ≤ t')
    (hk : k ≤ k') : id.Below t' k' := by
  cases id with
  | temp _ => exact Nat.lt_of_lt_of_le h ht
  | slot _ => exact Nat.lt_of_lt_of_le h hk

/-- An expression emits tidy code and leaves its value under one of the names so far. -/
structure Emitted.Placed (F : Callee → Prop) (s : Supply) (a b : Nat) (r : Emitted ValueId) :
    Prop where
  tidy : Tidy F s a r.supply b r.events
  value : r.value.Below r.supply.temps b

namespace Emitted.Placed

variable {s : Supply} {a b : Nat} {r : Emitted ValueId}

theorem temps (h : r.Placed F s a b) : s.temps ≤ r.supply.temps := h.tidy.names.temps

theorem slots (h : r.Placed F s a b) : a ≤ b := h.tidy.names.slots

theorem lt (h : r.Placed F s a b) {V : List Nat} (hV : ∀ k ∈ V, k < a) : ∀ k ∈ V, k < b :=
  fun k hk => Nat.lt_of_lt_of_le (hV k hk) h.slots

end Emitted.Placed

theorem Constant.emit_placed {type : Ty} {c : Constant} {s : Supply} {a : Nat} :
    (c.emit type s).Placed F s a a := by
  cases c with
  | integer n | bool b | null =>
    exact ⟨Tidy.nil.temp rfl rfl rfl trivial, Nat.lt_succ_self s.temps⟩

/-- The event of a conversion names its result and has to do with no label. -/
theorem CastAction.event?_names {action : CastAction} {source type : Ty} {id value : ValueId}
    {e : Event} (h : action.event? source type id value = some e) :
    e.introduces? = some id ∧ e.sets? = none ∧ e.targets = [] ∧ e.Calls F := by
  cases action with
  | reinterpret => cases h
  | _ =>
    cases h
    exact ⟨rfl, rfl, rfl, trivial⟩

/-- Each step names a temporary of its own. -/
theorem Step.emitAll_placed {a : Nat} : ∀ {steps : List Step} {type : Ty} {value : ValueId}
    {s : Supply}, value.Below s.temps a → (Step.emitAll type value steps s).Placed F s a a
  | [], type, value, s, h => ⟨.nil, h⟩
  | st :: sts, type, value, s, h => by
    cases he : st.edge.action.event? type st.edge.destination (.temp s.temps) value with
    | some e =>
      have ih : (Step.emitAll st.edge.destination (.temp s.temps) sts
          ⟨s.temps + 1, s.labels⟩).Placed F ⟨s.temps + 1, s.labels⟩ a a :=
        Step.emitAll_placed (Nat.lt_succ_self s.temps)
      obtain ⟨hi, hs, ht, hc⟩ := CastAction.event?_names he
      rw [Step.emitAll_some he]
      exact ⟨(Tidy.nil.temp hi hs ht hc).append ih.tidy, ih.value⟩
    | none =>
      have ih : (Step.emitAll st.edge.destination value sts
          ⟨s.temps + 1, s.labels⟩).Placed F ⟨s.temps + 1, s.labels⟩ a a :=
        Step.emitAll_placed (h.mono (Nat.le_succ _) le_rfl)
      rw [Step.emitAll_none he]
      have skip : Names ⟨s.temps, a⟩ ⟨s.temps + 1, a⟩ [] := .nothing rfl (Nat.le_succ _) le_rfl
      exact ⟨⟨skip.append ih.tidy.names, ih.tidy.labelled, ih.tidy.calls⟩, ih.value⟩

/-- The variables in scope stay among those so far. -/
theorem TypedStmt.Scoped.extend_lt {V : List Nat} {a b : Nat} {st : TypedStmt}
    (h : st.Scoped F V a b) (hab : a ≤ b) (hV : ∀ k ∈ V, k < a) : ∀ k ∈ st.extend V, k < b := by
  have old : ∀ k ∈ V, k < b := fun k hk => Nat.lt_of_lt_of_le (hV k hk) hab
  cases st with
  | define slot name type init =>
    intro k hk
    rcases List.mem_cons.mp hk with rfl | hk
    · cases init with
      | none => exact h.2 ▸ h.1 ▸ Nat.lt_succ_self _
      | some e => exact h.2 ▸ Nat.lt_succ_self _
    · exact old k hk
  | expr _ | ret _ | loop _ _ => exact old

mutual

/-- By induction on the tree: every part uses the names that the parts before it left. -/
theorem Typed.emit_placed : ∀ (e : Typed) {V : List Nat} {a b : Nat} (s : Supply),
    e.Scoped F V a b → (∀ k ∈ V, k < a) → (e.emit s).Placed F s a b
  | .mk f n, V, a, b, s, h, hV => by
    have hn := Node.emit_placed n f.type s h hV
    have hc : (Step.emitAll f.type (n.emit f.type s).value f.chain.steps
        (n.emit f.type s).supply).Placed F (n.emit f.type s).supply b b :=
      Step.emitAll_placed hn.value
    exact ⟨hn.tidy.append hc.tidy, hc.value⟩

/-- By induction on the tree. -/
theorem Node.emit_placed : ∀ (n : Node) (type : Ty) {V : List Nat} {a b : Nat} (s : Supply),
    n.Scoped F V a b → (∀ k ∈ V, k < a) → (n.emit type s).Placed F s a b
  | .constant c, type, V, a, b, s, h, _ => by
    obtain rfl : a = b := h
    exact Constant.emit_placed
  | .variable k name, type, V, a, b, s, h, hV => by
    obtain ⟨hk, rfl⟩ := h
    exact ⟨.nil, hV k hk⟩
  | .addressOf e, type, V, a, b, s, h, hV | .dereference e, type, V, a, b, s, h, hV
  | .cast e, type, V, a, b, s, h, hV => Typed.emit_placed e s h hV
  | .unary op e, type, V, a, b, s, h, hV => by
    have pe := Typed.emit_placed e s h hV
    exact ⟨pe.tidy.temp rfl rfl rfl trivial, Nat.lt_succ_self _⟩
  | .binary op x y t, type, V, a, b, s, h, hV => by
    obtain ⟨m, hx, hy⟩ := h
    have px := Typed.emit_placed x s hx hV
    have py := Typed.emit_placed y (x.emit s).supply hy (px.lt hV)
    exact ⟨px.tidy.append (py.tidy.temp rfl rfl rfl trivial), Nat.lt_succ_self _⟩
  | .logical .and x y, type, V, a, b, s, h, hV => by
    obtain ⟨m, hx, hy⟩ := h
    have px := Typed.emit_placed x s hx hV
    have py := Typed.emit_placed y (forArms (x.emit s).supply) hy (px.lt hV)
    rw [Node.emit_and]
    exact ⟨px.tidy.branching (py.tidy.event rfl rfl rfl trivial) .known,
      Nat.lt_succ_of_lt (Nat.lt_of_succ_le py.temps)⟩
  | .logical .or x y, type, V, a, b, s, h, hV => by
    obtain ⟨m, hx, hy⟩ := h
    have px := Typed.emit_placed x s hx hV
    have py := Typed.emit_placed y ⟨(x.emit s).supply.temps + 2, (x.emit s).supply.labels + 2⟩ hy
      (px.lt hV)
    rw [Node.emit_or]
    exact ⟨px.tidy.branching .known (py.tidy.event rfl rfl rfl trivial),
      Nat.lt_of_succ_lt (Nat.lt_of_succ_le py.temps)⟩
  | .assign x y, type, V, a, b, s, h, hV => by
    obtain ⟨m, hx, hy⟩ := h
    have px := Typed.emit_placed x s hx hV
    have py := Typed.emit_placed y (x.emit s).supply hy (px.lt hV)
    exact ⟨px.tidy.append (py.tidy.event rfl rfl rfl trivial), px.value.mono py.temps py.slots⟩
  | .call c es, type, V, a, b, s, h, hV => by
    have hes := Typed.emitAll_tidy es s h.2 hV
    exact ⟨hes.temp rfl rfl rfl h.1, Nat.lt_succ_self _⟩
  | .conditional c t none, type, V, a, b, s, h, hV => by
    obtain ⟨m, hc, ht⟩ := h
    have pc := Typed.emit_placed c s hc hV
    have pt := Typed.emit_placed t (forArms (c.emit s).supply) ht (pc.lt hV)
    rw [Node.emit_conditional_none]
    exact ⟨pc.tidy.branching pt.tidy.give .nil, Nat.lt_of_succ_le pt.temps⟩
  | .conditional c t (some e), type, V, a, b, s, h, hV => by
    obtain ⟨m, m', hc, ht, he⟩ := h
    have pc := Typed.emit_placed c s hc hV
    have pt := Typed.emit_placed t (forArms (c.emit s).supply) ht (pc.lt hV)
    have pe := Typed.emit_placed e (t.emit (forArms (c.emit s).supply)).supply he
      (pt.lt (pc.lt hV))
    rw [Node.emit_conditional_some]
    exact ⟨pc.tidy.branching pt.tidy.give pe.tidy.give,
      Nat.lt_of_lt_of_le (Nat.lt_of_succ_le pt.temps) pe.temps⟩
  | .block ss none, type, V, a, b, s, h, hV => by
    obtain ⟨hss, -⟩ := TypedStmt.emitAll_tidy ss s h hV
    have skip : Names ⟨(TypedStmt.emitAll ss s).supply.temps, b⟩
        ⟨(TypedStmt.emitAll ss s).supply.temps + 1, b⟩ [] := .nothing rfl (Nat.le_succ _) le_rfl
    have names := hss.names.append skip
    rw [List.append_nil] at names
    rw [Node.emit_block_none]
    exact ⟨⟨names, hss.labelled, hss.calls⟩, Nat.lt_succ_self _⟩
  | .block ss (some r), type, V, a, b, s, h, hV => by
    obtain ⟨m, hss, hr⟩ := h
    obtain ⟨pss, hV'⟩ := TypedStmt.emitAll_tidy ss s hss hV
    have pr := Typed.emit_placed r (TypedStmt.emitAll ss s).supply hr hV'
    exact ⟨pss.append pr.tidy, pr.value⟩

theorem Typed.emitAll_tidy : ∀ (es : List Typed) {V : List Nat} {a b : Nat} (s : Supply),
    Typed.ScopedAll F V a b es → (∀ k ∈ V, k < a) →
    Tidy F s a (Typed.emitAll es s).supply b (Typed.emitAll es s).events
  | [], V, a, b, s, h, _ => by
    obtain rfl : a = b := h
    exact .nil
  | e :: es, V, a, b, s, h, hV => by
    obtain ⟨m, he, hes⟩ := h
    have pe := Typed.emit_placed e s he hV
    rw [Typed.emitAll_cons]
    exact pe.tidy.append (Typed.emitAll_tidy es (e.emit s).supply hes (pe.lt hV))

/-- A statement names the storage that it defines. -/
theorem TypedStmt.emit_tidy : ∀ (st : TypedStmt) {V : List Nat} {a b : Nat} (s : Supply),
    st.Scoped F V a b → (∀ k ∈ V, k < a) → Tidy F s a (st.emit s).supply b (st.emit s).events
  | .expr e, V, a, b, s, h, hV => by
    rw [TypedStmt.emit_expr]
    exact (Typed.emit_placed e s h hV).tidy
  | .define k name t none, V, a, b, s, h, _ => by
    obtain ⟨rfl, rfl⟩ := h
    exact ⟨.allocate (.nothing rfl le_rfl le_rfl), .event rfl rfl,
      List.forall_mem_singleton.mpr trivial⟩
  | .define k name t (some e), V, a, b, s, h, hV => by
    obtain ⟨he, rfl⟩ := h
    exact (Typed.emit_placed e s he hV).tidy.define
  | .ret none, V, a, b, s, h, _ => by
    obtain rfl : a = b := h
    exact Tidy.nil.event rfl rfl rfl trivial
  | .ret (some e), V, a, b, s, h, hV => (Typed.emit_placed e s h hV).tidy.event rfl rfl rfl trivial
  | .loop c body, V, a, b, s, h, hV => by
    obtain ⟨m, hc, hb⟩ := h
    have pc := Typed.emit_placed c ⟨s.temps, s.labels + 2⟩ hc hV
    have pb := Typed.emit_placed body ⟨(c.emit ⟨s.temps, s.labels + 2⟩).supply.temps + 1,
      (c.emit ⟨s.temps, s.labels + 2⟩).supply.labels⟩ hb (pc.lt hV)
    exact pc.tidy.loop pb.tidy

theorem TypedStmt.emitAll_tidy : ∀ (ss : List TypedStmt) {V : List Nat} {a b : Nat} (s : Supply),
    TypedStmt.ScopedAll F V a b ss → (∀ k ∈ V, k < a) →
    Tidy F s a (TypedStmt.emitAll ss s).supply b (TypedStmt.emitAll ss s).events ∧
      ∀ k ∈ TypedStmt.extendAll V ss, k < b
  | [], V, a, b, s, h, hV => by
    obtain rfl : a = b := h
    exact ⟨.nil, hV⟩
  | st :: ss, V, a, b, s, h, hV => by
    obtain ⟨m, hst, hss⟩ := h
    have pst := TypedStmt.emit_tidy st s hst hV
    obtain ⟨pss, hV'⟩ := TypedStmt.emitAll_tidy ss (st.emit s).supply hss
      (hst.extend_lt pst.names.slots hV)
    exact ⟨pst.append pss, hV'⟩

end

/-! ### The code of a function -/

namespace Function

variable {st : Structs} {f : Function}

/-- Behind the code of its body, a function returns what that gives; behind one that ends in
`return` there is nothing. -/
theorem emit_events (h : f.WellTyped st) :
    f.emit.events = (f.body.emit ⟨0, 0⟩).events ++ if f.body.diverges then [] else
      [.ret (if f.result.isVoid then none else some (f.body.emit ⟨0, 0⟩).value)] := by
  rw [Emit.events, Function.emit, Emit.run_bind]
  refine congrArg (_ ++ ·) ?_
  split
  · next ss r hn =>
    cases r with
    | some r =>
      have ends : f.body.diverges = false := by
        rw [Typed.diverges, hn]
        rfl
      rw [ends]
      cases f.result.isVoid <;> rfl
    | none =>
      cases hd : f.body.diverges with
      | true => rfl
      | false =>
        -- A body that leaves no value is `Void` unless it ends in `return`.
        have void : f.result.isVoid = true := by
          by_contra hv
          have produces : f.body.producesValue = false := by
            rw [Typed.producesValue, hn]
            rfl
          rw [Bool.not_eq_true, ← h.type] at hv
          rw [h.body.diverges hv produces] at hd
          cases hd
        rw [void]
        rfl
  · next hn =>
    have ends : f.body.diverges = false := by
      rw [Typed.diverges, Node.diverges.eq_def]
      split
      · next hb => exact absurd hb (hn _ _)
      · rfl
    rw [ends]
    cases f.result.isVoid <;> rfl

theorem emit_tidy (h : f.WellTyped st) (hs : f.Scoped F) :
    ∃ s b, Tidy F ⟨0, 0⟩ f.arguments.length s b f.emit.events := by
  obtain ⟨b, hb⟩ := hs.body
  have placed := Typed.emit_placed f.body ⟨0, 0⟩ hb fun k => List.mem_range.mp
  refine ⟨(f.body.emit ⟨0, 0⟩).supply, b, ?_⟩
  rw [emit_events h]
  split
  · exact placed.tidy.append .nil
  · exact placed.tidy.event rfl rfl rfl trivial

end Function

end Gauge
