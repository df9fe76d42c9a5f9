import Gauge.Proofs.Code.Operands
import Gauge.Proofs.Code.Refine
import Mathlib.Data.List.Nodup

/-!
# Proofs — control flow

Along every path through the code of a function, whatever its branches decide, a value is there
before it is read, a branch has been given a value before that value is used, and the path gets to a
`return`: it never runs off the end.

Paths are followed by `Code.Path`.  `Code.Crosses` says of a piece of code that every path through
it is safe and what is known behind it; its rules follow the ways in which code is put together, and
the proof is one induction over the tree.  Nothing reads the name that a block that ends in `return`
leaves behind.

Main statement: `Module.build_flows`.
-/

namespace Gauge

/-! ### Paths -/

/-- Control can go on with the next event. -/
def Event.fallsThrough : Event → Bool
  | .jump _ | .ret _ => false
  | _ => true

/-- The labels at which control can go on. -/
def Event.exits : Event → List Label
  | .jump target => [target]
  | .branch _ _ _ otherwise _ => [otherwise]
  | _ => []

/-- The name that has a value behind the event.  A branch has none until it is given one, unless it
is worth nothing. -/
def Event.gives? : Event → Option ValueId
  | .branch id type _ _ _ => if type.isVoid then some id else none
  | .branchResult id _ => some id
  | e => e.introduces?

namespace Code

variable {parameters : List ValueId} {past : List Event}

/-- The paths through some code from its start: the events so far, the last one first, and what is
ahead. -/
inductive Path (code : List Noted) : List Event → List Noted → Prop
  | start : Path code [] code
  | next {past : List Event} {e : Event} {types : List Ty} {rest : List Noted}
      (h : Path code past ((e, types) :: rest)) (hf : e.fallsThrough = true) :
      Path code (e :: past) rest
  | goes {past : List Event} {e : Event} {types : List Ty} {rest rest' : List Noted} {l : Label}
      (h : Path code past ((e, types) :: rest)) (hl : l ∈ e.exits)
      (ht : target Prod.fst l code = some rest') : Path code (e :: past) rest'

/-- Since the name was last introduced it has been given a value. -/
def Settled (id : ValueId) : List Event → Prop
  | [] => True
  | e :: past => e.gives? = some id ∨ e.introduces? ≠ some id ∧ Settled id past

/-- The name has a value behind a path. -/
structure Ready (parameters : List ValueId) (past : List Event) (id : ValueId) : Prop where
  named : id ∈ parameters ∨ id ∈ introduced past
  settled : Settled id past

/-- What an event reads is there: the operands that stand for expressions that are worth something
have values, and a branch that is given one has been introduced. -/
structure Reads (parameters : List ValueId) (past : List Event) (e : Event) (types : List Ty) :
    Prop where
  operands : ∀ x ∈ e.operands.zip types, x.2.HasValue → Ready parameters past x.1
  branch : ∀ id v, e = .branchResult id v → id ∈ introduced past

/-- The control flow of the code of a function is well formed. -/
structure Flows (parameters : List ValueId) (result : Ty) (code : List Noted) : Prop where
  /-- Every label that is named is set exactly once. -/
  set : ∀ x ∈ code, ∀ l ∈ x.1.targets, (labels (code.map Prod.fst)).count l = 1
  /-- Every name is introduced at most once. -/
  names : (parameters ++ introduced (code.map Prod.fst)).Nodup
  /-- Every operand has its type, and a return carries a value if the result is not `Void`. -/
  fits : ∀ x ∈ code, x.1.Fits result x.2
  reads : ∀ past e types rest, Path code past ((e, types) :: rest) → Reads parameters past e types
  /-- Where control may go there is code. -/
  exits : ∀ past e types rest, Path code past ((e, types) :: rest) → ∀ l ∈ e.exits,
    ∃ rest', target Prod.fst l code = some rest'
  /-- A path is at a return or goes on. -/
  ends : ∀ past rest, Path code past rest → ∃ e types rest', rest = (e, types) :: rest' ∧
    ((∃ v, e = .ret v) ∨ ∃ rest'', Path code (e :: past) rest'')

/-! ### What is ready -/

section Ready

variable {parameters : List ValueId} {past : List Event} {id : ValueId} {e : Event}

theorem Ready.cons (h : Ready parameters past id) (he : e.introduces? ≠ some id) :
    Ready parameters (e :: past) id := by
  refine ⟨?_, .inr ⟨he, h.settled⟩⟩
  refine h.named.imp_right fun hid => ?_
  obtain ⟨e', he', hid⟩ := List.mem_filterMap.mp hid
  exact List.mem_filterMap.mpr ⟨e', .tail _ he', hid⟩

/-- An event that introduces a name and gives it a value. -/
theorem Ready.new (hi : e.introduces? = some id) (hg : e.gives? = some id) :
    Ready parameters (e :: past) id :=
  ⟨.inr (List.mem_filterMap.mpr ⟨e, .head _, hi⟩), .inl hg⟩

/-- A branch that was introduced before is given a value. -/
theorem Ready.given {v : ValueId} (h : id ∈ introduced past) :
    Ready parameters (.branchResult id v :: past) id :=
  ⟨.inr h, .inl rfl⟩

theorem Reads.none {types : List Ty} (h : e.operands = []) (hb : ∀ id v, e ≠ .branchResult id v) :
    Reads parameters past e types := by
  refine ⟨?_, fun id v he => absurd he (hb id v)⟩
  rw [h]
  intro x hx
  cases hx

theorem Reads.one {v : ValueId} {t : Ty} (h : e.operands = [v])
    (hb : ∀ id v, e ≠ .branchResult id v)
    (hv : t.HasValue → Ready parameters past v) : Reads parameters past e [t] := by
  refine ⟨?_, fun id v he => absurd he (hb id v)⟩
  rw [h]
  intro x hx ht
  obtain rfl := List.mem_singleton.mp hx
  exact hv ht

theorem Reads.two {v w : ValueId} {t u : Ty} (h : e.operands = [v, w])
    (hb : ∀ id v, e ≠ .branchResult id v) (hv : t.HasValue → Ready parameters past v)
    (hw : u.HasValue → Ready parameters past w) : Reads parameters past e [t, u] := by
  refine ⟨?_, fun id v he => absurd he (hb id v)⟩
  rw [h]
  intro x hx ht
  rcases List.mem_cons.mp hx with rfl | hx
  · exact hv ht
  · obtain rfl := List.mem_singleton.mp hx
    exact hw ht

/-- A return of an expression that is worth something. -/
theorem Reads.ret {v : ValueId} {t u : Ty} (hu : u.isVoid = t.isVoid)
    (hv : t.HasValue → Ready parameters past v) :
    Reads parameters past (.ret (if u.isVoid then .none else some v)) (returnTypes t) := by
  unfold returnTypes
  rw [hu]
  cases t.isVoid with
  | true => exact .none rfl nofun
  | false => exact .one rfl nofun hv

end Ready

/-! ### What stays ready -/

/-- From one place on a path to a later one: names are not lost, and those that are not between two
tallies stay ready. -/
structure Kept (parameters : List ValueId) (lo hi : Tally) (past past' : List Event) : Prop where
  ready : ∀ id : ValueId, ¬ id.Between lo hi → Ready parameters past id → Ready parameters past' id
  named : ∀ id ∈ introduced past, id ∈ introduced past'

namespace Kept

variable {parameters : List ValueId} {lo mid hi : Tally} {past past₁ past₂ : List Event} {e : Event}
  {xs ys : List Event}

theorem refl : Kept parameters lo hi past past := ⟨fun _ _ h => h, fun _ h => h⟩

theorem mono {lo' hi' : Tally} (h : Kept parameters lo hi past past₁)
    (hb : ∀ id : ValueId, id.Between lo hi → id.Between lo' hi') :
    Kept parameters lo' hi' past past₁ :=
  ⟨fun id hid => h.ready id fun h' => hid (hb id h'), h.named⟩

theorem comp (h₁ : Kept parameters lo hi past past₁) (h₂ : Kept parameters lo hi past₁ past₂) :
    Kept parameters lo hi past past₂ :=
  ⟨fun id hid h => h₂.ready id hid (h₁.ready id hid h), fun id h => h₂.named id (h₁.named id h)⟩

theorem trans (h₁ : Kept parameters lo mid past past₁) (h₂ : Kept parameters mid hi past₁ past₂)
    (hx : Names lo mid xs) (hy : Names mid hi ys) : Kept parameters lo hi past past₂ :=
  (h₁.mono fun _ h => h.mono le_rfl le_rfl hy.temps hy.slots).comp
    (h₂.mono fun _ h => h.mono hx.temps hx.slots le_rfl le_rfl)

/-- One more event. -/
theorem cons (h : Kept parameters lo hi past past₁)
    (he : ∀ id, e.introduces? = some id → id.Between lo hi) :
    Kept parameters lo hi past (e :: past₁) := by
  refine ⟨fun id hid hr => (h.ready id hid hr).cons fun hi => hid (he id hi), fun id hid => ?_⟩
  obtain ⟨e', he', hi⟩ := List.mem_filterMap.mp (h.named id hid)
  exact List.mem_filterMap.mpr ⟨e', .tail _ he', hi⟩

theorem other (h : Kept parameters lo hi past past₁) (he : e.introduces? = none) :
    Kept parameters lo hi past (e :: past₁) := h.cons fun id hid => by rw [he] at hid; cases hid

/-- An event that introduces the next temporary. -/
theorem temp {t k : Nat} (h : Kept parameters lo ⟨t, k⟩ past past₁)
    (he : e.introduces? = some (.temp t)) (ht : lo.temps ≤ t) :
    Kept parameters lo ⟨t + 1, k⟩ past (e :: past₁) := by
  have wider : Kept parameters lo ⟨t + 1, k⟩ past past₁ :=
    h.mono fun _ hb => hb.mono le_rfl le_rfl (Nat.le_succ t) le_rfl
  refine wider.cons fun id hid => ?_
  cases he.symm.trans hid
  exact ⟨ht, Nat.lt_succ_self t⟩

/-- What was named before stays ready. -/
theorem below {id : ValueId} (h : Kept parameters lo hi past past₁)
    (hid : id.Below lo.temps lo.slots)
    (hr : Ready parameters past id) : Ready parameters past₁ id := by
  refine h.ready id (fun hb => ?_) hr
  cases id with
  | temp t | slot k => exact absurd hb.1 (Nat.not_le.mpr hid)

theorem slots {V : List Nat} (h : Kept parameters lo hi past past₁) (hV : ∀ k ∈ V, k < lo.slots)
    (hr : ∀ k ∈ V, Ready parameters past (.slot k)) : ∀ k ∈ V, Ready parameters past₁ (.slot k) :=
  fun k hk => h.below (hV k hk) (hr k hk)

end Kept

/-! ### Safe code -/

/-- The next `n` events of every path from here on are there and find what they read. -/
def Safe (parameters : List ValueId) (code : List Noted) : Nat → List Event → List Noted → Prop
  | 0, _, _ => True
  | _ + 1, _, [] => False
  | n + 1, past, (e, types) :: rest =>
    Reads parameters past e types ∧
      (e.fallsThrough = true → Safe parameters code n (e :: past) rest) ∧
      ∀ l ∈ e.exits, ∃ rest', target Prod.fst l code = some rest' ∧
        Safe parameters code n (e :: past) rest'

theorem Safe.pred {code : List Noted} : ∀ {n : Nat} {past : List Event}
    {rest : List Noted}, Safe parameters code (n + 1) past rest → Safe parameters code n past rest
  | 0, _, _, _ => trivial
  | n + 1, past, [], h => h
  | n + 1, past, (e, types) :: rest, h => by
    obtain ⟨reads, falls, goes⟩ := h
    refine ⟨reads, fun hf => (falls hf).pred, fun l hl => ?_⟩
    obtain ⟨rest', ht, hs⟩ := goes l hl
    exact ⟨rest', ht, hs.pred⟩

theorem Safe.mono {code : List Noted} {m n : Nat}
    {rest : List Noted} (h : Safe parameters code n past rest) (hm : m ≤ n) :
    Safe parameters code m past rest := by
  induction hm with
  | refl => exact h
  | step _ ih => exact ih h.pred

/-- The code of a function with the types of its operands, and what its tree was checked against. -/
structure Body where
  parameters : List ValueId
  code : List Noted
  unambiguous : Unambiguous (code.map Prod.fst)
  structs : Structs
  result : Ty
  known : Callee → Prop

/-- Every path through `xs` is safe, and what is behind it is as `Q` says. -/
def Crosses (C : Body) (past : List Event) (xs : List Noted) (Q : List Event → Prop) : Prop :=
  ∀ n post, xs ++ post <:+ C.code → (∀ past', Q past' → Safe C.parameters C.code n past' post) →
    Safe C.parameters C.code n past (xs ++ post)

/-- Behind a piece of code older names are ready, and so is its value if it has one. -/
structure Leaves (C : Body) (lo hi : Tally) (has : Prop) (id : ValueId) (past past' : List Event) :
    Prop where
  kept : Kept C.parameters lo hi past past'
  ready : has → Ready C.parameters past' id

namespace Crosses

variable {C : Body} {past : List Event} {xs ys : List Noted} {Q R : List Event → Prop} {e : Event}
  {types : List Ty}

theorem nil (h : Q past) : Crosses C past [] Q := fun _ _ _ hQ => hQ past h

theorem mono (h : Crosses C past xs Q) (hQ : ∀ past', Q past' → R past') : Crosses C past xs R :=
  fun n post hs hR => h n post hs fun _ h' => hR _ (hQ _ h')

theorem append (hx : Crosses C past xs Q) (hy : ∀ past', Q past' → Crosses C past' ys R) :
    Crosses C past (xs ++ ys) R := by
  intro n post hs hR
  rw [List.append_assoc] at hs ⊢
  exact hx n _ hs fun past' h' => hy past' h' n post ((List.suffix_append xs _).trans hs) hR

/-- An event in front of some code, behind which control does not go to a label. -/
theorem cons (hx : e.exits = []) (hr : Reads C.parameters past e types)
    (h : Crosses C (e :: past) xs Q) : Crosses C past ((e, types) :: xs) Q := by
  intro n post hs hQ
  cases n with
  | zero => trivial
  | succ n =>
    have safe := h (n + 1) post ((List.suffix_cons _ _).trans hs) hQ
    refine ⟨hr, fun _ => safe.pred, fun l hl => ?_⟩
    rw [hx] at hl
    cases hl

theorem event (hx : e.exits = []) (hr : Reads C.parameters past e types)
    (h : Q (e :: past)) : Crosses C past [(e, types)] Q := cons hx hr (nil h)

/-- Nothing is behind a return. -/
theorem ret {v : Option ValueId} (hr : Reads C.parameters past (.ret v) types) :
    Crosses C past [(.ret v, types)] Q := by
  intro n post _ _
  cases n with
  | zero => trivial
  | succ n => exact ⟨hr, fun hf => (by cases hf), fun l hl => by cases hl⟩

end Crosses

/-- Behind a jump is what stands behind its label. -/
theorem Safe.jump {code post rest : List Noted}
    {l : Label} {types : List Ty} {n : Nat} (hc : Unambiguous (code.map Prod.fst))
    (hl : (.label l, types) :: post <:+ code)
    (h : ∀ m < n, Safe parameters code m (.jump l :: past) post) :
    Safe parameters code n past ((.jump l, []) :: rest) := by
  cases n with
  | zero => trivial
  | succ n =>
    refine ⟨.none rfl nofun, fun hf => (by cases hf), fun l' hl' => ?_⟩
    obtain rfl := List.mem_singleton.mp hl'
    exact ⟨post, target_eq hc rfl hl, h n (Nat.lt_succ_self n)⟩

/-- A branch goes on with the next event or behind a label. -/
theorem Safe.branch {code post rest : List Noted}
    {l after : Label} {types types' : List Ty} {id condition : ValueId} {type : Ty} {n : Nat}
    (hc : Unambiguous (code.map Prod.fst)) (hl : (.label l, types') :: post <:+ code)
    (hr : Reads parameters past (.branch id type condition l after) types)
    (hx : Safe parameters code n (.branch id type condition l after :: past) rest)
    (hy : Safe parameters code n (.branch id type condition l after :: past) post) :
    Safe parameters code n past ((.branch id type condition l after, types) :: rest) := by
  cases n with
  | zero => trivial
  | succ n =>
    refine ⟨hr, fun _ => hx.pred, fun l' hl' => ?_⟩
    obtain rfl := List.mem_singleton.mp hl'
    exact ⟨post, target_eq hc rfl hl, hy.pred⟩

namespace Crosses

variable {C : Body} {past : List Event} {xs ys : List Noted} {Q : List Event → Prop}
  {id condition : ValueId} {type t : Ty} {l : Nat}

/-- Both arms of a branch go on behind its last label. -/
theorem branching (hr : Reads C.parameters past (.branch id type condition ⟨l⟩ ⟨l + 1⟩) [t])
    (hx : Crosses C (.branch id type condition ⟨l⟩ ⟨l + 1⟩ :: past) xs fun past' =>
      Q (.jump ⟨l + 1⟩ :: past'))
    (hy : Crosses C (.branch id type condition ⟨l⟩ ⟨l + 1⟩ :: past) ys fun past' =>
      Q (.jump ⟨l + 1⟩ :: past')) :
    Crosses C past (notedBranching id type condition t l xs ys) Q := by
  intro n post hs hQ
  have layout : notedBranching id type condition t l xs ys ++ post =
      (.branch id type condition ⟨l⟩ ⟨l + 1⟩, [t]) :: (xs ++ (.jump ⟨l + 1⟩, []) ::
        (.label ⟨l⟩, []) :: (ys ++ (.jump ⟨l + 1⟩, []) :: (.label ⟨l + 1⟩, []) :: post)) := by
    simp [notedBranching]
  rw [layout] at hs ⊢
  have first := (List.suffix_cons _ _).trans hs
  have middle : (.label ⟨l⟩, []) :: (ys ++ (.jump ⟨l + 1⟩, []) :: (.label ⟨l + 1⟩, []) :: post) <:+
      C.code := (List.suffix_cons _ _).trans (suffix_behind hs)
  have second := (List.suffix_cons _ _).trans middle
  have last : (.label ⟨l + 1⟩, []) :: post <:+ C.code :=
    (List.suffix_cons _ _).trans (suffix_behind middle)
  have leave : ∀ past' rest, Q (.jump ⟨l + 1⟩ :: past') →
      Safe C.parameters C.code n past' ((.jump ⟨l + 1⟩, []) :: rest) := fun past' rest h =>
    .jump C.unambiguous last fun m hm => (hQ _ h).mono (Nat.le_of_lt hm)
  exact .branch C.unambiguous middle hr (hx n _ first fun past' h => leave past' _ h)
    (hy n _ second fun past' h => leave past' _ h)

/-- A loop whose turns keep the invariant `I`, by induction on the number of events to come: a turn
takes at least one. -/
theorem loop {I J : List Event → Prop}
    (hx : ∀ past, I past → Crosses C past xs J)
    (hr : ∀ past, J past → Reads C.parameters past (.branch id type condition ⟨l + 1⟩ ⟨l + 1⟩) [t])
    (hy : ∀ past, J past → Crosses C
      (.branch id type condition ⟨l + 1⟩ ⟨l + 1⟩ :: past) ys fun past' => I (.jump ⟨l⟩ :: past'))
    (hQ : ∀ past, J past → Q (.branch id type condition ⟨l + 1⟩ ⟨l + 1⟩ :: past))
    (h : I (.label ⟨l⟩ :: past)) :
    Crosses C past ((.label ⟨l⟩, []) :: (xs ++
      (.branch id type condition ⟨l + 1⟩ ⟨l + 1⟩, [t]) ::
        (ys ++ [(.jump ⟨l⟩, []), (.label ⟨l + 1⟩, [])]))) Q := by
  intro n post hs hpost
  have layout : (.label ⟨l⟩, []) :: (xs ++ (.branch id type condition ⟨l + 1⟩ ⟨l + 1⟩, [t]) ::
      (ys ++ [(.jump ⟨l⟩, []), (.label ⟨l + 1⟩, [])])) ++ post =
      (.label ⟨l⟩, []) :: (xs ++ (.branch id type condition ⟨l + 1⟩ ⟨l + 1⟩, [t]) ::
        (ys ++ (.jump ⟨l⟩, []) :: (.label ⟨l + 1⟩, []) :: post)) := by
    simp
  rw [layout] at hs ⊢
  have middle := suffix_behind hs
  have exit : (.label ⟨l + 1⟩, []) :: post <:+ C.code :=
    (List.suffix_cons _ _).trans (suffix_behind middle)
  have turn : ∀ n, (∀ past', Q past' → Safe C.parameters C.code n past' post) → ∀ past, I past →
      Safe C.parameters C.code n past (xs ++ (.branch id type condition ⟨l + 1⟩ ⟨l + 1⟩, [t]) ::
        (ys ++ (.jump ⟨l⟩, []) :: (.label ⟨l + 1⟩, []) :: post)) := by
    intro n
    induction n using Nat.strong_induction_on with
    | _ n ih =>
      intro hpost past hI
      refine hx past hI n _ ((List.suffix_cons _ _).trans hs) fun past₁ hJ => ?_
      refine .branch C.unambiguous exit (hr past₁ hJ) ?_ (hpost _ (hQ past₁ hJ))
      refine hy past₁ hJ n _ ((List.suffix_cons _ _).trans middle) fun past₂ hI' => ?_
      refine .jump C.unambiguous hs fun m hm => ih m hm (fun past' h' => ?_) _ hI'
      exact (hpost past' h').mono (Nat.le_of_lt hm)
  cases n with
  | zero => trivial
  | succ n =>
    refine ⟨.none rfl nofun, fun _ => (turn (n + 1) hpost _ h).pred, fun l' hl' => ?_⟩
    cases hl'

end Crosses

end Code

open Code

/-! ### Constants and conversions -/

section Crosses

variable {C : Body} {past : List Event} {s : Supply} {id value : ValueId}

theorem Constant.emit_crosses {c : Constant} {type : Ty} {a : Nat} {p : Prop} :
    Crosses C past ((c.emit type s).events.zip [[]])
      (Leaves C ⟨s.temps, a⟩ ⟨(c.emit type s).supply.temps, a⟩ p (c.emit type s).value past) := by
  cases c with
  | integer n | bool b | null =>
    exact .event rfl (.none rfl nofun) ⟨Kept.refl.temp rfl le_rfl, fun _ => .new rfl rfl⟩

/-- The event of a conversion reads its source and gives its result a value. -/
theorem CastAction.event?_reads {action : CastAction} {source type : Ty}
    {e : Event} (h : action.event? source type id value = some e) :
    e.operands = [value] ∧ e.gives? = some id ∧ e.exits = [] ∧ (∀ id v, e ≠ .branchResult id v) ∧
      action ≠ .reinterpret := by
  cases action with
  | reinterpret => cases h
  | _ =>
    cases h
    exact ⟨rfl, rfl, rfl, nofun, nofun⟩

theorem CastAction.event?_none {action : CastAction} {source type : Ty}
    (h : action.event? source type id value = none) : action = .reinterpret := by
  cases action with
  | reinterpret => rfl
  | _ => cases h

/-- By induction on the steps. -/
theorem Step.emitAll_crosses {a : Nat} {p : Prop} : ∀ {steps : List Step} {type : Ty}
    {value : ValueId} {s : Supply} {past : List Event}, value.Below s.temps a →
    Ready C.parameters past value → Crosses C past
      ((Step.emitAll type value steps s).events.zip (Step.operandTypes type steps))
      (Leaves C ⟨s.temps, a⟩ ⟨(Step.emitAll type value steps s).supply.temps, a⟩ p
        (Step.emitAll type value steps s).value past)
  | [], type, value, s, past, _, hr => .nil ⟨.refl, fun _ => hr⟩
  | st :: sts, type, value, s, past, hv, hr => by
    rw [Step.operandTypes]
    cases he : st.edge.action.event? type st.edge.destination (.temp s.temps) value with
    | some e =>
      obtain ⟨hi, -⟩ := CastAction.event?_names (F := fun _ => True) he
      obtain ⟨ho, hg, hx, hb, ha⟩ := CastAction.event?_reads he
      rw [Step.emitAll_some he, if_neg ha]
      have placed : (Step.emitAll st.edge.destination (.temp s.temps) sts
          ⟨s.temps + 1, s.labels⟩).Placed (fun _ => True) ⟨s.temps + 1, s.labels⟩ a a :=
        Step.emitAll_placed (Nat.lt_succ_self s.temps)
      refine .cons hx (.one ho hb fun _ => hr) ?_
      refine (Step.emitAll_crosses (a := a) (p := p) (Nat.lt_succ_self _) (.new hi hg)).mono ?_
      rintro past' ⟨kept, ready⟩
      exact ⟨(Kept.refl.temp hi le_rfl).trans kept (.temp hi) placed.tidy.names, ready⟩
    | none =>
      rw [Step.emitAll_none he, if_pos (CastAction.event?_none he)]
      have placed : (Step.emitAll st.edge.destination value sts
          ⟨s.temps + 1, s.labels⟩).Placed (fun _ => True) ⟨s.temps + 1, s.labels⟩ a a :=
        Step.emitAll_placed (hv.mono (Nat.le_succ _) le_rfl)
      have skip : Names ⟨s.temps, a⟩ ⟨s.temps + 1, a⟩ [] := .nothing rfl (Nat.le_succ _) le_rfl
      refine (Step.emitAll_crosses (p := p) (hv.mono (Nat.le_succ _) le_rfl) hr).mono ?_
      rintro past' ⟨kept, ready⟩
      exact ⟨Kept.refl.trans kept skip placed.tidy.names, ready⟩

/-- The conversions of a node; where it is worth nothing, there are none. -/
theorem Facts.WellTyped.convert_crosses {f : Facts} (hf : f.WellTyped C.structs) {value : ValueId}
    {a : Nat} (hb : value.Below s.temps a)
    (hv : f.type.HasValue → Ready C.parameters past value) :
    Crosses C past ((Step.emitAll f.type value f.chain.steps s).events.zip
        (Step.operandTypes f.type f.chain.steps))
      (Leaves C ⟨s.temps, a⟩ ⟨(Step.emitAll f.type value f.chain.steps s).supply.temps, a⟩
        (Step.typeAfter f.type f.chain.steps).HasValue
        (Step.emitAll f.type value f.chain.steps s).value past) := by
  rcases hf.hasValue_or with hasValue | none
  · exact Step.emitAll_crosses hb (hv hasValue)
  · rw [none]
    exact .nil ⟨.refl, hv⟩

/-! ### Arms -/

/-- A branch gets the value of an arm that has one. -/
theorem Code.Reads.given {parameters : List ValueId} {t : Ty} (hid : id ∈ introduced past)
    (hv : t.HasValue → Ready parameters past value) :
    Reads parameters past (.branchResult id value) [t] := by
  refine ⟨?_, ?_⟩
  · intro x hx ht
    obtain rfl := List.mem_singleton.mp hx
    exact hv ht
  · intro id' v h
    cases h
    exact hid

/-- A value of a branch that is known without running anything. -/
theorem Code.Crosses.known {a n : Nat} {type : Ty} {p : Prop} (hid : id ∈ introduced past) :
    Crosses C past
      [(.literal (.temp s.temps) n type, []), (.branchResult id (.temp s.temps), [type])]
      (Leaves C ⟨s.temps, a⟩ ⟨s.temps + 1, a⟩ p id past) := by
  have literal : Kept C.parameters ⟨s.temps, a⟩ ⟨s.temps + 1, a⟩ past
      (.literal (.temp s.temps) n type :: past) := Kept.refl.temp rfl le_rfl
  have named := literal.named id hid
  exact .cons rfl (.none rfl nofun)
    (.event rfl (.given named fun _ => .new rfl rfl) ⟨literal.other rfl, fun _ => .given named⟩)

/-- A branch behind its condition: whichever arm is run, older names stay ready, and the branch gets
its value if both arms give it one. -/
theorem Code.Crosses.branched {lo mid hi : Tally} {t k l : Nat} {type u : Ty} {condition : ValueId}
    {past₀ past before xs' ys' : List Event} {xs ys : List Noted} {p : Prop}
    (kept : Kept C.parameters lo ⟨t, k⟩ past₀ past) (n : Names lo ⟨t, k⟩ before)
    (nx : Names ⟨t + 1, k⟩ mid xs') (ny : Names mid hi ys')
    (hr : u.HasValue → Ready C.parameters past condition)
    (hx : Crosses C (.branch (.temp t) type condition ⟨l⟩ ⟨l + 1⟩ :: past) xs
      (Leaves C ⟨t + 1, k⟩ mid p (.temp t) (.branch (.temp t) type condition ⟨l⟩ ⟨l + 1⟩ :: past)))
    (hy : Crosses C (.branch (.temp t) type condition ⟨l⟩ ⟨l + 1⟩ :: past) ys
      (Leaves C mid hi p (.temp t) (.branch (.temp t) type condition ⟨l⟩ ⟨l + 1⟩ :: past))) :
    Crosses C past (notedBranching (.temp t) type condition u l xs ys)
      (Leaves C lo hi p (.temp t) past₀) := by
  have entered := kept.temp (e := .branch (.temp t) type condition ⟨l⟩ ⟨l + 1⟩) rfl n.temps
  have head := n.append (.temp (e := .branch (.temp t) type condition ⟨l⟩ ⟨l + 1⟩) rfl)
  refine .branching (.one rfl nofun hr) (hx.mono ?_) (hy.mono ?_)
  · rintro past' ⟨arm, ready⟩
    have left := (entered.trans arm head nx).trans .refl (head.append nx) ny
    exact ⟨left.other rfl, fun h => (ready h).cons nofun⟩
  · rintro past' ⟨arm, ready⟩
    have right := (entered.trans .refl head nx).trans arm (head.append nx) ny
    exact ⟨right.other rfl, fun h => (ready h).cons nofun⟩

/-- A loop: behind every turn, older names are ready. -/
theorem Code.Crosses.looped {lo hi : Tally} {t k l : Nat} {type u : Ty} {condition : ValueId}
    {past xs' ys' : List Event} {xs ys : List Noted}
    (nx : Names lo ⟨t, k⟩ xs') (ny : Names ⟨t + 1, k⟩ hi ys')
    (hx : ∀ past', Kept C.parameters lo hi past past' →
      Crosses C past' xs (Leaves C lo ⟨t, k⟩ u.HasValue condition past'))
    (hy : ∀ past', Kept C.parameters lo hi past past' →
      Crosses C past' ys (Kept C.parameters ⟨t + 1, k⟩ hi past')) :
    Crosses C past ((.label ⟨l⟩, []) :: (xs ++
      (.branch (.temp t) type condition ⟨l + 1⟩ ⟨l + 1⟩, [u]) ::
        (ys ++ [(.jump ⟨l⟩, []), (.label ⟨l + 1⟩, [])]))) (Kept C.parameters lo hi past) := by
  have tested : ∀ past', Kept C.parameters lo hi past past' → Kept C.parameters lo hi past
      (.branch (.temp t) type condition ⟨l + 1⟩ ⟨l + 1⟩ :: past') := by
    intro past' kept
    refine kept.cons fun id hid => ?_
    cases hid
    exact ⟨nx.temps, Nat.lt_of_succ_le ny.temps⟩
  refine .loop (I := Kept C.parameters lo hi past) (J := Leaves C lo hi u.HasValue condition past)
    ?_ ?_ ?_ ?_ (Kept.refl.other rfl)
  · intro past₁ kept
    refine (hx past₁ kept).mono ?_
    rintro past₂ ⟨first, ready⟩
    refine ⟨kept.comp (first.mono fun _ hb => ?_), ready⟩
    exact hb.mono le_rfl le_rfl (Nat.le_of_succ_le ny.temps) ny.slots
  · rintro past₁ ⟨-, ready⟩
    exact .one rfl nofun ready
  · rintro past₁ ⟨kept, -⟩
    refine (hy _ (tested past₁ kept)).mono fun past₂ turn => ?_
    refine Kept.other ((tested past₁ kept).comp (turn.mono fun _ hb => ?_)) rfl
    exact hb.mono (Nat.le_succ_of_le nx.temps) nx.slots le_rfl le_rfl
  · rintro past₁ ⟨kept, -⟩
    exact tested past₁ kept

end Crosses

/-! ### Expressions

One lemma for each kind of node says what is behind it, if that is known of its parts. -/

/-- What is behind an expression, if anything is, knows its value if it is worth something, and all
older names. -/
def Typed.Passes (C : Body) (e : Typed) : Prop :=
  ∀ ⦃V : List Nat⦄ ⦃a b : Nat⦄ (s : Supply) ⦃past : List Event⦄, e.Scoped C.known V a b →
    (∀ k ∈ V, k < a) → e.WellTyped C.structs C.result →
    (∀ k ∈ V, Ready C.parameters past (.slot k)) →
    Crosses C past (e.noted s) fun past' => e.diverges = false ∧
      Leaves C ⟨s.temps, a⟩ ⟨(e.emit s).supply.temps, b⟩ e.type.HasValue (e.emit s).value past past'

/-- What is behind a node. -/
def Node.Passes (C : Body) (n : Node) : Prop :=
  ∀ (type : Ty) ⦃V : List Nat⦄ ⦃a b : Nat⦄ (s : Supply) ⦃past : List Event⦄,
    n.Scoped C.known V a b → (∀ k ∈ V, k < a) → n.WellTyped C.structs C.result type →
    (∀ k ∈ V, Ready C.parameters past (.slot k)) →
    Crosses C past (n.noted type s) fun past' => n.diverges = false ∧
      Leaves C ⟨s.temps, a⟩ ⟨(n.emit type s).supply.temps, b⟩ type.HasValue (n.emit type s).value
        past past'

/-- What is behind the arguments of a call. -/
def Typed.PassesAll (C : Body) (es : List Typed) : Prop :=
  ∀ ⦃V : List Nat⦄ ⦃a b : Nat⦄ (s : Supply) ⦃past : List Event⦄,
    Typed.ScopedAll C.known V a b es → (∀ k ∈ V, k < a) →
    Typed.WellTypedAll C.structs C.result es → (∀ k ∈ V, Ready C.parameters past (.slot k)) →
    Crosses C past (Typed.notedAll es s) fun past' =>
      Kept C.parameters ⟨s.temps, a⟩ ⟨(Typed.emitAll es s).supply.temps, b⟩ past past' ∧
        ∀ x ∈ (Typed.emitAll es s).value.zip (es.map Typed.type), x.2.HasValue →
          Ready C.parameters past' x.1

/-- What is behind a statement, if it is not `return`, knows all variables so far. -/
def TypedStmt.Passes (C : Body) (t : TypedStmt) : Prop :=
  ∀ ⦃V : List Nat⦄ ⦃a b : Nat⦄ (s : Supply) ⦃past : List Event⦄, t.Scoped C.known V a b →
    (∀ k ∈ V, k < a) → t.WellTyped C.structs C.result →
    (∀ k ∈ V, Ready C.parameters past (.slot k)) →
    Crosses C past (t.noted s) fun past' => t.isReturn = false ∧
      Kept C.parameters ⟨s.temps, a⟩ ⟨(t.emit s).supply.temps, b⟩ past past' ∧
        ∀ k ∈ t.extend V, Ready C.parameters past' (.slot k)

/-- What is behind statements one after the other. -/
def TypedStmt.PassesAll (C : Body) (ss : List TypedStmt) : Prop :=
  ∀ ⦃V : List Nat⦄ ⦃a b : Nat⦄ (s : Supply) ⦃past : List Event⦄,
    TypedStmt.ScopedAll C.known V a b ss → (∀ k ∈ V, k < a) →
    TypedStmt.WellTypedAll C.structs C.result ss → (∀ k ∈ V, Ready C.parameters past (.slot k)) →
    Crosses C past (TypedStmt.notedAll ss s) fun past' =>
      ss.getLast?.any (·.isReturn) = false ∧
      Kept C.parameters ⟨s.temps, a⟩ ⟨(TypedStmt.emitAll ss s).supply.temps, b⟩ past past' ∧
        ∀ k ∈ TypedStmt.extendAll V ss, Ready C.parameters past' (.slot k)

section Trees

variable {C : Body} {e x y c t r : Typed} {ss : List TypedStmt} {V : List Nat} {a b : Nat}
  {s : Supply} {past : List Event} {id : ValueId}

/-- A node, and the conversions behind it. -/
theorem Typed.Passes.mk {f : Facts} {n : Node} (hn : n.Passes C) : (Typed.mk f n).Passes C := by
  intro V a b s past h hV hw hr
  have placed := Node.emit_placed n f.type s h hV
  have steps : (Step.emitAll f.type (n.emit f.type s).value f.chain.steps
      (n.emit f.type s).supply).Placed C.known (n.emit f.type s).supply b b :=
    Step.emitAll_placed placed.value
  rw [Typed.noted_mk hw.2]
  refine .append (hn f.type s h hV hw.2 hr) ?_
  rintro past₁ ⟨hd, kept, ready⟩
  refine (hw.1.convert_crosses placed.value ready).mono ?_
  rintro past₂ ⟨converted, ready⟩
  exact ⟨hd, kept.trans converted placed.tidy.names steps.tidy.names, ready⟩

/-- An arm whose value is given to the branch. -/
theorem Typed.Passes.given {p : Prop} (he : e.Passes C) (h : e.Scoped C.known V a b)
    (hV : ∀ k ∈ V, k < a) (hw : e.WellTyped C.structs C.result)
    (hr : ∀ k ∈ V, Ready C.parameters past (.slot k)) (hid : id ∈ introduced past) :
    Crosses C past (e.noted s ++ [(.branchResult id (e.emit s).value, [e.type])])
      (Leaves C ⟨s.temps, a⟩ ⟨(e.emit s).supply.temps, b⟩ p id past) := by
  refine .append (he s h hV hw hr) ?_
  rintro past' ⟨-, kept, ready⟩
  have named := kept.named id hid
  exact .event rfl (.given named ready) ⟨kept.other rfl, fun _ => .given named⟩

/-- An arm of a branch that has a value: it gives it to the branch, or nothing is behind it. -/
theorem Typed.Passes.arm {type : Ty} (he : e.Passes C) (h : e.Scoped C.known V a b)
    (hV : ∀ k ∈ V, k < a) (hw : e.WellTyped C.structs C.result)
    (hr : ∀ k ∈ V, Ready C.parameters past (.slot k)) (ht : e.type = type)
    (hf : type.isFlagged = false) (hid : id ∈ introduced past) :
    Crosses C past (e.noted s ++ (give (!type.isVoid && e.producesValue) id (e.emit s).value).zip
        (giveTypes (!type.isVoid && e.producesValue) e.type))
      (Leaves C ⟨s.temps, a⟩ ⟨(e.emit s).supply.temps, b⟩ type.HasValue id past) := by
  cases hp : !type.isVoid && e.producesValue with
  | true => exact he.given h hV hw hr hid
  | false =>
    refine .append (he s h hV hw hr) ?_
    rintro past' ⟨hd, kept, -⟩
    refine .nil ⟨kept, fun hasValue => ?_⟩
    -- An arm that is worth something and leaves no value ends in `return`.
    have hvoid := Ty.not_void_of_hasValue hasValue hf
    rw [hvoid, Bool.not_false, Bool.true_and] at hp
    rw [hw.diverges (ht ▸ hvoid) hp] at hd
    cases hd

namespace Node.Passes

theorem constant {c : Constant} : (Node.constant c).Passes C := by
  intro type V a b s past h _ _ _
  obtain rfl : a = b := h
  exact Constant.emit_crosses.mono fun _ h => ⟨rfl, h⟩

theorem «variable» {k : Nat} {name : String} : (Node.variable k name).Passes C :=
  fun _ _ _ _ _ _ h _ _ hr => .nil ⟨rfl, .refl, fun _ => hr k h.1⟩

theorem addressOf (he : e.Passes C) : (Node.addressOf e).Passes C := by
  intro type V a b s past h hV hw hr
  refine (he s h hV hw.1 hr).mono ?_
  rintro past' ⟨-, kept, ready⟩
  exact ⟨rfl, kept, fun _ => ready (Ty.hasValue_of_reference hw.2.1)⟩

theorem dereference (he : e.Passes C) : (Node.dereference e).Passes C := by
  intro type V a b s past h hV hw hr
  obtain ⟨we, pointed, hp, -⟩ := hw
  refine (he s h hV we hr).mono ?_
  rintro past' ⟨-, kept, ready⟩
  exact ⟨rfl, kept, fun _ => ready (hp ▸ Ty.hasValue_pointerTo)⟩

theorem cast (he : e.Passes C) : (Node.cast e).Passes C := by
  intro type V a b s past h hV hw hr
  refine (he s h hV hw.1 hr).mono ?_
  rintro past' ⟨-, kept, ready⟩
  exact ⟨rfl, kept, fun hasValue => ready (hw.2 ▸ hasValue)⟩

theorem unary {op : UnaryOp} (he : e.Passes C) : (Node.unary op e).Passes C := by
  intro type V a b s past h hV hw hr
  have pe := Typed.emit_placed e s h hV
  rw [Node.noted_unary hw.1]
  refine .append (he s h hV hw.1 hr) ?_
  rintro past₁ ⟨-, kept, ready⟩
  exact .event rfl (.one rfl nofun ready) ⟨rfl, kept.temp rfl pe.temps, fun _ => .new rfl rfl⟩

/-- Both operands have values when the operation reads them. -/
theorem binary {op : BinaryOp} {u : Ty} (hx : x.Passes C) (hy : y.Passes C) :
    (Node.binary op x y u).Passes C := by
  intro type V a b s past h hV hw hr
  obtain ⟨mid, sx, sy⟩ := h
  obtain ⟨wx, wy, -⟩ := hw
  have px := Typed.emit_placed x s sx hV
  have py := Typed.emit_placed y (x.emit s).supply sy (px.lt hV)
  rw [Node.noted_binary wx wy]
  refine .append (hx s sx hV wx hr) ?_
  rintro past₁ ⟨-, first, hx⟩
  refine .append (hy _ sy (px.lt hV) wy (first.slots hV hr)) ?_
  rintro past₂ ⟨-, second, hy⟩
  have both := first.trans second px.tidy.names py.tidy.names
  exact .event rfl (.two rfl nofun (fun h => second.below px.value (hx h)) hy)
    ⟨rfl, both.temp rfl (px.temps.trans py.temps), fun _ => .new rfl rfl⟩

/-- The second operand is an arm, and the other arm gives the value that the first one decides. -/
theorem logical {op : LogicalOp} (hx : x.Passes C) (hy : y.Passes C) :
    (Node.logical op x y).Passes C := by
  intro type V a b s past h hV hw hr
  obtain ⟨mid, sx, sy⟩ := h
  obtain ⟨wx, wy, -⟩ := hw
  have px := Typed.emit_placed x s sx hV
  have arm : ∀ {past' : List Event} {e : Event}, (∀ k, e.introduces? ≠ some (.slot k)) →
      Kept C.parameters ⟨s.temps, a⟩ ⟨(x.emit s).supply.temps, mid⟩ past past' →
      ∀ k ∈ V, Ready C.parameters (e :: past') (.slot k) := fun he kept k hk =>
    (kept.slots hV hr k hk).cons (he k)
  cases op with
  | and =>
    have py := Typed.emit_placed y (forArms (x.emit s).supply) sy (px.lt hV)
    rw [Node.noted_and wx wy, Node.emit_and]
    refine .append (hx s sx hV wx hr) ?_
    rintro past₁ ⟨-, first, hx⟩
    refine (Code.Crosses.branched first px.tidy.names py.tidy.names
      (.temp (e := .literal _ 0 type) rfl) hx ?_ (.known (.head _))).mono
        fun past' h => ⟨rfl, h⟩
    exact hy.given sy (px.lt hV) wy (arm nofun first) (.head _)
  | or =>
    have py := Typed.emit_placed y ⟨(x.emit s).supply.temps + 2, (x.emit s).supply.labels + 2⟩ sy
      (px.lt hV)
    rw [Node.noted_or wx wy, Node.emit_or]
    refine .append (hx s sx hV wx hr) ?_
    rintro past₁ ⟨-, first, hx⟩
    refine (Code.Crosses.branched first px.tidy.names (.temp (e := .literal _ 1 type) rfl)
      py.tidy.names hx (.known (s := forArms (x.emit s).supply) (.head _)) ?_).mono
        fun past' h => ⟨rfl, h⟩
    exact hy.given sy (px.lt hV) wy (arm nofun first) (.head _)

/-- So it is with a store. -/
theorem assign (hx : x.Passes C) (hy : y.Passes C) : (Node.assign x y).Passes C := by
  intro type V a b s past h hV hw hr
  obtain ⟨mid, sx, sy⟩ := h
  obtain ⟨wx, wy, tx, -, -, -⟩ := hw
  have px := Typed.emit_placed x s sx hV
  have py := Typed.emit_placed y (x.emit s).supply sy (px.lt hV)
  rw [Node.noted_assign wx wy]
  refine .append (hx s sx hV wx hr) ?_
  rintro past₁ ⟨-, first, hx⟩
  refine .append (hy _ sy (px.lt hV) wy (first.slots hV hr)) ?_
  rintro past₂ ⟨-, second, hy⟩
  have both := first.trans second px.tidy.names py.tidy.names
  have target := second.below px.value (hx (Ty.hasValue_of_reference tx))
  exact .event rfl (.two rfl nofun (fun _ => target) hy)
    ⟨rfl, both.other rfl, fun _ => target.cons nofun⟩

theorem call {callee : Callee} {es : List Typed} (hes : Typed.PassesAll C es) :
    (Node.call callee es).Passes C := by
  intro type V a b s past h hV hw hr
  have tidy := Typed.emitAll_tidy es s h.2 hV
  rw [Node.noted_call hw.1]
  refine .append (hes s h.2 hV hw.1 hr) ?_
  rintro past₁ ⟨kept, ready⟩
  exact .event rfl ⟨ready, nofun⟩ ⟨rfl, kept.temp rfl tidy.names.temps, fun _ => .new rfl rfl⟩

/-- A single arm gives no value. -/
theorem conditional_none (hc : c.Passes C) (ht : t.Passes C) :
    (Node.conditional c t none).Passes C := by
  intro type V a b s past h hV hw hr
  obtain ⟨mid, sc, st⟩ := h
  obtain ⟨wc, wt, -, rfl⟩ := hw
  have pc := Typed.emit_placed c s sc hV
  have pt := Typed.emit_placed t (forArms (c.emit s).supply) st (pc.lt hV)
  rw [Node.noted_conditional_none wc wt, Node.emit_conditional_none]
  refine .append (hc s sc hV wc hr) ?_
  rintro past₁ ⟨-, first, hx⟩
  refine (Code.Crosses.branched (p := False) first pc.tidy.names pt.tidy.names
    (.nothing (rfl : introduced [] = []) le_rfl le_rfl) hx ?_ (.nil ⟨.refl, False.elim⟩)).mono
      fun past' h => ⟨rfl, h.kept, fun hasValue => (Ty.not_hasValue_void hasValue).elim⟩
  refine .append (ht _ st (pc.lt hV) wt fun k hk => (first.slots hV hr k hk).cons nofun) ?_
  rintro past₂ ⟨-, arm, -⟩
  exact .nil ⟨arm, False.elim⟩

/-- Both arms give the value of the branch. -/
theorem conditional_some (hc : c.Passes C) (ht : t.Passes C) (he : e.Passes C) :
    (Node.conditional c t (some e)).Passes C := by
  intro type V a b s past h hV hw hr
  obtain ⟨mid, mid', sc, st, se⟩ := h
  obtain ⟨wc, wt, we, -, tt, te, unflagged⟩ := hw
  have pc := Typed.emit_placed c s sc hV
  have pt := Typed.emit_placed t (forArms (c.emit s).supply) st (pc.lt hV)
  have pe := Typed.emit_placed e (t.emit (forArms (c.emit s).supply)).supply se (pt.lt (pc.lt hV))
  rw [Node.noted_conditional_some wc wt we, Node.emit_conditional_some]
  refine .append (hc s sc hV wc hr) ?_
  rintro past₁ ⟨-, first, hx⟩
  refine (Code.Crosses.branched first pc.tidy.names pt.tidy.names pe.tidy.names hx ?_ ?_).mono
    fun past' h => ⟨rfl, h⟩
  · exact ht.arm st (pc.lt hV) wt (fun k hk => (first.slots hV hr k hk).cons nofun) tt unflagged
      (.head _)
  · exact he.arm se (pt.lt (pc.lt hV)) we (fun k hk => (first.slots hV hr k hk).cons nofun) te
      unflagged (.head _)

/-- A block without a value ends in `return` or is worth nothing. -/
theorem block_none (hss : TypedStmt.PassesAll C ss) : (Node.block ss none).Passes C := by
  intro type V a b s past h hV hw hr
  obtain ⟨wss, ends⟩ := hw
  obtain ⟨pss, -⟩ := TypedStmt.emitAll_tidy ss s h hV
  have skip : Names ⟨(TypedStmt.emitAll ss s).supply.temps, b⟩
      ⟨(TypedStmt.emitAll ss s).supply.temps + 1, b⟩ [] := .nothing rfl (Nat.le_succ _) le_rfl
  rw [Node.noted_block_none, Node.emit_block_none]
  refine (hss s h hV wss hr).mono ?_
  rintro past' ⟨hd, kept, -⟩
  refine ⟨hd, kept.trans .refl pss.names skip, fun hasValue => ?_⟩
  rcases ends with diverges | rfl
  · rw [show (Node.block ss none).diverges = false from hd] at diverges
    cases diverges
  · exact (Ty.not_hasValue_void hasValue).elim

/-- The statements of a block, and its value. -/
theorem block_some (hss : TypedStmt.PassesAll C ss) (hr : r.Passes C) :
    (Node.block ss (some r)).Passes C := by
  intro type V a b s past h hV hw hr'
  obtain ⟨mid, sss, sr⟩ := h
  obtain ⟨wss, wr, tr⟩ := hw
  obtain ⟨pss, hV'⟩ := TypedStmt.emitAll_tidy ss s sss hV
  have pr := Typed.emit_placed r (TypedStmt.emitAll ss s).supply sr hV'
  rw [Node.noted_block_some wss]
  refine .append (hss s sss hV wss hr') ?_
  rintro past₁ ⟨-, first, hr'⟩
  refine (hr _ sr hV' wr hr').mono ?_
  rintro past₂ ⟨-, second, ready⟩
  exact ⟨rfl, first.trans second pss.names pr.tidy.names, fun hasValue => ready (tr ▸ hasValue)⟩

end Node.Passes

/-- Arguments one after the other. -/
theorem Typed.PassesAll.cons {es : List Typed} (he : e.Passes C) (hes : Typed.PassesAll C es) :
    Typed.PassesAll C (e :: es) := by
  intro V a b s past h hV hw hr
  obtain ⟨mid, se, ses⟩ := h
  have pe := Typed.emit_placed e s se hV
  have pes := Typed.emitAll_tidy es (e.emit s).supply ses (pe.lt hV)
  rw [Typed.notedAll_cons hw.1, Typed.emitAll_cons]
  refine .append (he s se hV hw.1 hr) ?_
  rintro past₁ ⟨-, first, he⟩
  refine (hes _ ses (pe.lt hV) hw.2 (first.slots hV hr)).mono ?_
  rintro past₂ ⟨others, hes⟩
  refine ⟨first.trans others pe.tidy.names pes.names, fun x hx hasValue => ?_⟩
  rcases List.mem_cons.mp hx with rfl | hx
  · exact others.below pe.value (he hasValue)
  · exact hes x hx hasValue

/-! ### Statements -/

namespace TypedStmt.Passes

theorem expr (he : e.Passes C) : (TypedStmt.expr e).Passes C := by
  intro V a b s past h hV hw hr
  rw [TypedStmt.noted, TypedStmt.emit_expr]
  refine (he s h hV hw hr).mono ?_
  rintro past' ⟨-, kept, -⟩
  exact ⟨rfl, kept, kept.slots hV hr⟩

/-- A variable without a first value. -/
theorem define_none {k : Nat} {name : String} {type : Ty} :
    (TypedStmt.define k name type none).Passes C := by
  intro V a b s past h hV hw hr
  obtain ⟨rfl, rfl⟩ := h
  refine .event rfl (.none rfl nofun) ⟨rfl, ?_, ?_⟩
  · refine Kept.refl.cons fun id hid => ?_
    cases hid
    exact ⟨le_rfl, Nat.lt_succ_self k⟩
  · intro k' hk'
    rcases List.mem_cons.mp hk' with rfl | hk'
    · exact .new rfl rfl
    · refine (hr k' hk').cons fun he => ?_
      cases he
      exact Nat.lt_irrefl k (hV k hk')

/-- The first value is stored. -/
theorem define_some {k : Nat} {name : String} {type : Ty} (he : e.Passes C) :
    (TypedStmt.define k name type (some e)).Passes C := by
  intro V a b s past h hV hw hr
  obtain ⟨se, rfl⟩ := h
  have pe := Typed.emit_placed e s se hV
  have opened : Kept C.parameters ⟨s.temps, a⟩ ⟨(e.emit s).supply.temps, k + 1⟩ past
      (.allocate (.slot k) type name :: past) := by
    refine Kept.refl.cons fun id hid => ?_
    cases hid
    exact ⟨pe.slots, Nat.lt_succ_self k⟩
  rw [TypedStmt.noted_define hw.1]
  refine .cons rfl (.none rfl nofun) (.append (he s se hV hw.1 (opened.slots hV hr)) ?_)
  rintro past₁ ⟨-, kept, ready⟩
  -- The code of the first value does not introduce the variable again.
  have storage : Ready C.parameters past₁ (.slot k) :=
    kept.ready _ (fun hb => Nat.lt_irrefl k hb.2) (.new rfl rfl)
  have whole : Kept C.parameters ⟨s.temps, a⟩ ⟨(e.emit s).supply.temps, k + 1⟩ past past₁ :=
    opened.comp (kept.mono fun _ hb => hb.mono le_rfl le_rfl le_rfl (Nat.le_succ k))
  refine .event rfl (.two rfl nofun (fun _ => storage) ready) ⟨rfl, whole.other rfl, ?_⟩
  intro k' hk'
  rcases List.mem_cons.mp hk' with rfl | hk'
  · exact storage.cons nofun
  · exact (whole.slots hV hr k' hk').cons nofun

theorem ret_none : (TypedStmt.ret none).Passes C :=
  fun _ _ _ _ _ _ _ _ _ => .ret (.none rfl nofun)

theorem ret_some (he : e.Passes C) : (TypedStmt.ret (some e)).Passes C := by
  intro V a b s past h hV hw hr
  rw [TypedStmt.noted_ret hw.1]
  refine .append (he s h hV hw.1 hr) ?_
  rintro past₁ ⟨-, -, ready⟩
  exact .ret (.ret rfl ready)

/-- A loop comes back to its condition. -/
theorem loop (hc : c.Passes C) (ht : t.Passes C) : (TypedStmt.loop c t).Passes C := by
  intro V a b s past h hV hw hr
  obtain ⟨mid, sc, st⟩ := h
  obtain ⟨wc, wt, -⟩ := hw
  have pc := Typed.emit_placed c ⟨s.temps, s.labels + 2⟩ sc hV
  have pt := Typed.emit_placed t ⟨(c.emit ⟨s.temps, s.labels + 2⟩).supply.temps + 1,
    (c.emit ⟨s.temps, s.labels + 2⟩).supply.labels⟩ st (pc.lt hV)
  rw [TypedStmt.noted_loop wc wt, TypedStmt.emit_loop]
  refine (Code.Crosses.looped pc.tidy.names pt.tidy.names ?_ ?_).mono fun past' kept =>
    ⟨rfl, kept, kept.slots hV hr⟩
  · intro past₁ kept
    exact (hc _ sc hV wc (kept.slots hV hr)).mono fun _ h => h.2
  · intro past₁ kept
    exact (ht _ st (pc.lt hV) wt (kept.slots hV hr)).mono fun _ h => h.2.kept

end TypedStmt.Passes

/-- Statements one after the other. -/
theorem TypedStmt.PassesAll.cons {t : TypedStmt} (ht : t.Passes C)
    (hss : TypedStmt.PassesAll C ss) : TypedStmt.PassesAll C (t :: ss) := by
  intro V a b s past h hV hw hr
  obtain ⟨mid, st, sss⟩ := h
  have pt := TypedStmt.emit_tidy t s st hV
  have hV' := st.extend_lt pt.names.slots hV
  obtain ⟨pss, -⟩ := TypedStmt.emitAll_tidy ss (t.emit s).supply sss hV'
  rw [TypedStmt.notedAll_cons hw.1]
  refine .append (ht s st hV hw.1 hr) ?_
  rintro past₁ ⟨ht', first, hr'⟩
  refine (hss _ sss hV' hw.2 hr').mono ?_
  rintro past₂ ⟨hd, others, ready⟩
  refine ⟨?_, first.trans others pt.names pss.names, ready⟩
  cases ss with
  | nil => exact ht'
  | cons u ss =>
    rw [List.getLast?_cons_cons]
    exact hd

end Trees

/-! ### Trees -/

mutual

/-- By induction on the tree: every path through the code of an expression is safe. -/
theorem Typed.emit_crosses {C : Body} : ∀ e : Typed, e.Passes C
  | .mk _ n => .mk n.emit_crosses

/-- Every path through the code of a tree comes out behind it. By induction on the tree, one lemma
for each constructor. -/
theorem Node.emit_crosses {C : Body} : ∀ n : Node, n.Passes C
  | .constant _ => .constant
  | .variable _ _ => .variable
  | .addressOf e => .addressOf e.emit_crosses
  | .dereference e => .dereference e.emit_crosses
  | .cast e => .cast e.emit_crosses
  | .unary _ e => .unary e.emit_crosses
  | .binary _ x y _ => .binary x.emit_crosses y.emit_crosses
  | .logical _ x y => .logical x.emit_crosses y.emit_crosses
  | .assign x y => .assign x.emit_crosses y.emit_crosses
  | .call _ es => .call (Typed.emitAll_crosses es)
  | .conditional c t none => .conditional_none c.emit_crosses t.emit_crosses
  | .conditional c t (some e) => .conditional_some c.emit_crosses t.emit_crosses e.emit_crosses
  | .block ss none => .block_none (TypedStmt.emitAll_crosses ss)
  | .block ss (some r) => .block_some (TypedStmt.emitAll_crosses ss) r.emit_crosses

theorem Typed.emitAll_crosses {C : Body} : ∀ es : List Typed, Typed.PassesAll C es
  | [] => fun _ _ _ _ _ _ _ _ _ => .nil ⟨.refl, fun x hx => by cases hx⟩
  | e :: es => .cons e.emit_crosses (Typed.emitAll_crosses es)

theorem TypedStmt.emit_crosses {C : Body} : ∀ t : TypedStmt, t.Passes C
  | .expr e => .expr e.emit_crosses
  | .define _ _ _ none => .define_none
  | .define _ _ _ (some e) => .define_some e.emit_crosses
  | .ret none => .ret_none
  | .ret (some e) => .ret_some e.emit_crosses
  | .loop c body => .loop c.emit_crosses body.emit_crosses

theorem TypedStmt.emitAll_crosses {C : Body} : ∀ ss : List TypedStmt, TypedStmt.PassesAll C ss
  | [] => fun _ _ _ _ _ _ _ _ hr => .nil ⟨rfl, .refl, hr⟩
  | t :: ss => .cons t.emit_crosses (TypedStmt.emitAll_crosses ss)

end

/-! ### Functions -/

/-- Safety is kept along paths. -/
theorem Code.Path.safe {parameters : List ValueId} {code rest : List Noted} {past : List Event}
    (h : Path code past rest) (hs : ∀ n, Safe parameters code n [] code) :
    ∀ n, Safe parameters code n past rest := by
  induction h with
  | start => exact hs
  | next _ hf ih => exact fun n => (ih (n + 1)).2.1 hf
  | goes _ hl ht ih =>
    intro n
    obtain ⟨rest', ht', safe⟩ := (ih (n + 1)).2.2 _ hl
    cases ht.symm.trans ht'
    exact safe

namespace Function

variable {st : Structs} {f : Function} {F : Callee → Prop}

/-- The names of the parameters. -/
def parameters (f : Function) : List ValueId := f.arguments.map fun a => .slot a.slot

theorem map_noted (h : f.WellTyped st) : f.noted.map Prod.fst = f.emit.events :=
  List.map_fst_zip (emit_fits h).length_eq.le

theorem parameters_eq (hs : f.Scoped F) :
    f.parameters = (List.range f.arguments.length).map ValueId.slot := by
  rw [← hs.arguments, List.map_map]
  rfl

/-- No path gets stuck. -/
theorem safe (h : f.WellTyped st) (hs : f.Scoped F) (n : Nat) :
    Safe f.parameters f.noted n [] f.noted := by
  obtain ⟨b, hb⟩ := hs.body
  have start : ∀ k ∈ List.range f.arguments.length, Ready f.parameters [] (.slot k) := by
    intro k hk
    refine ⟨.inl ?_, trivial⟩
    rw [parameters_eq hs]
    exact List.mem_map_of_mem hk
  have unambiguous : Unambiguous (f.noted.map Prod.fst) := by
    rw [map_noted h]
    exact emit_unambiguous h hs
  let C : Body := ⟨f.parameters, f.noted, unambiguous, st, f.result, F⟩
  have crosses : ∀ xs, xs = f.noted → Crosses C [] xs fun _ => False := by
    rintro _ rfl
    rw [noted_eq h]
    refine .append (f.body.emit_crosses ⟨0, 0⟩ hb (fun k => List.mem_range.mp) h.body start) ?_
    rintro past ⟨hd, -, ready⟩
    rw [hd]
    exact .ret (.ret (by rw [h.type]) ready)
  have whole := crosses _ rfl n [] ⟨[], by simp [C]⟩ fun _ h => h.elim
  rwa [List.append_nil] at whole

theorem parameters_nodup (h : f.WellTyped st) (hs : f.Scoped F) :
    (f.parameters ++ introduced f.emit.events).Nodup := by
  obtain ⟨s, b, tidy⟩ := emit_tidy h hs
  rw [parameters_eq hs]
  refine List.nodup_append.mpr ⟨?_, tidy.names.nodup, ?_⟩
  · exact List.Nodup.map (fun i j hij => ValueId.slot.inj hij) List.nodup_range
  · rintro id hid _ hid' rfl
    obtain ⟨k, hk, rfl⟩ := List.mem_map.mp hid
    exact absurd (tidy.names.between _ hid').1 (Nat.not_le.mpr (List.mem_range.mp hk))

/-- The code of a function that is well typed and scoped flows well. -/
theorem flows (h : f.WellTyped st) (hs : f.Scoped F) : Flows f.parameters f.result f.noted where
  set := by
    intro x hx l hl
    obtain ⟨s, b, tidy⟩ := emit_tidy h hs
    have hx : x.1 ∈ f.emit.events := (List.of_mem_zip hx).1
    rw [map_noted h, tidy.labelled.set, if_pos (tidy.labelled.named _ hx l hl)]
  names := by
    rw [map_noted h]
    exact parameters_nodup h hs
  fits := fun x hx => ((List.forall₂_iff_zip.mp (emit_fits h)).2 hx).1
  reads := fun past e types rest path => (path.safe (safe h hs) 1).1
  exits := by
    intro past e types rest path l hl
    obtain ⟨rest', ht, -⟩ := (path.safe (safe h hs) 1).2.2 l hl
    exact ⟨rest', ht⟩
  ends := by
    intro past rest path
    have safe := path.safe (safe h hs) 1
    match rest, path, safe with
    | (e, types) :: rest', path, safe =>
      refine ⟨e, types, rest', rfl, ?_⟩
      cases e with
      | ret v => exact .inl ⟨v, rfl⟩
      | jump l =>
        obtain ⟨rest'', ht, -⟩ := safe.2.2 l (.head _)
        exact .inr ⟨rest'', .goes path (.head _) ht⟩
      | _ => exact .inr ⟨rest', .next path rfl⟩

end Function

/-- **Control flow is well formed.**  In the code of every function of an accepted module each label
that is named is set once, each value is named once, every path finds the values that it reads and
ends in a `return`, and returns carry a value exactly if the function gives one back. -/
theorem Module.build_flows {limits : Limits} {name file : String} {tree : ModuleSyntax} {m : Module}
    {scope : Scope}
    (h : (build (Scope.standard limits).push name file tree).outcome = .ok (m, scope))
    {f : Function}
    (hf : f ∈ m.functions) :
    f.noted.map Prod.fst = f.emit.events ∧ Flows f.parameters f.result f.noted := by
  obtain ⟨ht, hs⟩ := build_functions h f hf
  exact ⟨Function.map_noted ht, Function.flows ht hs⟩

/-- In the function of the module `pick` one arm of a branch that has a value ends in `return`. -/
theorem Module.build_flows_pick :
    ∃ m scope f, (build (Scope.standard .standard).push "pick" "pick.g" .pick).outcome =
        .ok (m, scope) ∧ f ∈ m.functions ∧ Flows f.parameters f.result f.noted := by
  have run : (build (Scope.standard .standard).push "pick" "pick.g" .pick).outcome.toOption.map
      (fun r => r.1.functions.length) = some 1 := by
    decide +kernel
  obtain ⟨⟨m, scope⟩, accepted, hl⟩ := eq_ok_of_map run
  obtain ⟨f, hf⟩ := List.length_pos_iff_exists_mem.mp (hl ▸ Nat.one_pos : 0 < m.functions.length)
  exact ⟨m, scope, f, accepted, hf, (Module.build_flows accepted hf).2⟩

end Gauge
