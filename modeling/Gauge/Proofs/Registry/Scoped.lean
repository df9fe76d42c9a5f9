import Gauge.Builtin
import Gauge.Proofs.Registry
import Gauge.Proofs.Success

/-!
# Proofs — identifiers of the types that scopes declare

The scopes of a compilation share one registry.  Opening and closing scopes and declaring types in
them is one way of using it (`Scope.Done` says what a step can do), and there the live identifiers
are those that the open scopes have noted (`Scope.Tracked`).

Main statement: `typeIds_faithful`.
-/

namespace Gauge

namespace Scope

/-- What can be done with the scopes of a compilation, as far as their types go. -/
inductive Step where
  | enter
  | leave
  | type (name : String) (t : Ty) (position : Position)
  | scalar (name : String) (kind : ScalarKind) (size : UInt32) (position : Position)
  | struct (name : String) (position : Position)

/-- What is done: a scope is opened or closed, and the registry is asked something. -/
inductive Event where
  | entered
  | left
  | asked (e : Registry.Event)

/-- What the registry is asked. -/
def Event.asked? : Event → Option Registry.Event
  | .asked e => some e
  | _ => none

def asked (log : List Event) : List Registry.Event := log.filterMap Event.asked?

/-- What is declared in each open scope, innermost first, after something is done. -/
def Event.next (scopes : List (List (TypeId × Ty))) : Event → List (List (TypeId × Ty))
  | .entered => [] :: scopes
  | .left => scopes.tail
  | .asked (.registered id t) => scopes.modifyHead (· ++ [(id, t)])
  | .asked (.deregistered _ _) => scopes

/-- What is declared in each open scope.  At first only the outermost is open, without types. -/
def opened (log : List Event) : List (List (TypeId × Ty)) := log.foldl Event.next [[]]

/-- The declaration of a type under the identifier that the scope noted last. -/
def noted (s : Scope) (t : Ty) : List Event :=
  s.frame.registered.getLast?.toList.map fun id => .asked (.registered id t)

/-- One step.  A declaration that fails leaves everything as it is. -/
def step (s : Scope) : Step → List Event × Scope
  | .enter => ([.entered], s.push)
  | .leave =>
    match s.outer with
    | [] => ([], s.pop)
    | _ :: _ =>
      (.left :: (s.world.registry.trace (s.frame.registered.map .deregister)).1.map .asked, s.pop)
  | .type name t position =>
    match s.registerType name t position with
    | .ok (id, s') => ([.asked (.registered id t)], s')
    | .error _ => ([], s)
  | .scalar name kind size position =>
    match s.registerScalar name kind size position with
    | .ok (t, s') => (s'.noted t, s')
    | .error _ => ([], s)
  | .struct name position =>
    match s.declareStruct name position with
    | .ok (r, s') => (s'.noted (.struct .none r), s')
    | .error _ => ([], s)

/-- The record of some steps and the scope after them. -/
def trace (s : Scope) : List Step → List Event × Scope
  | [] => ([], s)
  | a :: steps => ((s.step a).1 ++ ((s.step a).2.trace steps).1, ((s.step a).2.trace steps).2)

/-- What declaring a type does: it is registered, and its identifier is noted in the frame. -/
structure Declares (s : Scope) (id : TypeId) (t : Ty) (s' : Scope) : Prop where
  registry : s.world.registry.register t = (id, s'.world.registry)
  frame : s'.frame.registered = s.frame.registered ++ [id]
  outer : s'.outer = s.outer

section Declaring

variable {s s' : Scope} {name : String} {t : Ty} {position : Position} {size : UInt32}
  {kind : ScalarKind}
  {id : TypeId} {r : StructRef}

theorem registerType_declares (h : s.registerType name t position = .ok (id, s')) :
    s.Declares id t s' := by
  unfold registerType at h
  split at h
  case isTrue => cases h
  case isFalse =>
    cases h
    exact ⟨rfl, rfl, rfl⟩

theorem Declares.noted_eq (h : s.Declares id t s') : s'.noted t = [.asked (.registered id t)] := by
  simp [noted, h.frame]

theorem registerScalar_declares (h : s.registerScalar name kind size position = .ok (t, s')) :
    ∃ id, s.Declares id t s' := by
  obtain ⟨⟨id, s₁⟩, h₁, h⟩ := bind_eq_ok.mp h
  cases h
  obtain ⟨hregistry, hframe, houter⟩ := registerType_declares h₁
  exact ⟨id, hregistry, hframe, houter⟩

theorem declareStruct_declares (h : s.declareStruct name position = .ok (r, s')) :
    ∃ id, s.Declares id (.struct .none r) s' := by
  obtain ⟨⟨id, s₁⟩, h₁, h⟩ := bind_eq_ok.mp h
  cases h
  obtain ⟨hregistry, hframe, houter⟩ := registerType_declares h₁
  exact ⟨id, hregistry, hframe, houter⟩

end Declaring

/-- What a step can do, with what comes of it. -/
inductive Done (s : Scope) : List Event → Scope → Prop where
  | nothing : Done s [] s
  | entered : Done s [.entered] s.push
  | left (f : Frame) (fs : List Frame) (h : s.outer = f :: fs) :
      Done s (.left :: (s.world.registry.trace (s.frame.registered.map .deregister)).1.map .asked)
        s.pop
  | declared (id : TypeId) (t : Ty) (s' : Scope) (h : s.Declares id t s') :
      Done s [.asked (.registered id t)] s'

/-- What each step does. -/
theorem step_done (s : Scope) (a : Step) : Done s (s.step a).1 (s.step a).2 := by
  cases a with
  | enter => exact .entered
  | leave =>
    unfold step
    cases h : s.outer with
    | nil =>
      have same : s.pop = s := by simp [pop, h]
      rw [same]
      exact .nothing
    | cons f fs => exact .left f fs h
  | type name t position =>
    simp only [step]
    split
    case h_1 id s' h => exact .declared id t s' (registerType_declares h)
    case h_2 => exact .nothing
  | scalar name kind size position =>
    simp only [step]
    split
    case h_1 t s' h =>
      obtain ⟨id, hd⟩ := registerScalar_declares h
      rw [hd.noted_eq]
      exact .declared id t s' hd
    case h_2 => exact .nothing
  | struct name position =>
    simp only [step]
    split
    case h_1 r s' h =>
      obtain ⟨id, hd⟩ := declareStruct_declares h
      rw [hd.noted_eq]
      exact .declared id _ s' hd
    case h_2 => exact .nothing

/-! ### Every sequence of steps -/

section Record

variable {log log' : List Event}

theorem asked_append : asked (log ++ log') = asked log ++ asked log' := List.filterMap_append

theorem asked_map (es : List Registry.Event) : asked (es.map .asked) = es := by
  induction es with
  | nil => rfl
  | cons e es ih => exact congrArg (e :: ·) ih

theorem opened_append : opened (log ++ log') = log'.foldl Event.next (opened log) :=
  List.foldl_append

/-- Taking identifiers back closes no scope. -/
theorem foldl_next_deregister (r : Registry) (ids : List TypeId)
    (scopes : List (List (TypeId × Ty))) :
    ((r.trace (ids.map .deregister)).1.map .asked).foldl Event.next scopes = scopes := by
  induction ids generalizing r with
  | nil => rfl
  | cons id ids ih => exact ih _

end Record

/-- The open scopes have noted what is live. -/
structure Tracked (log : List Event) (s : Scope) : Prop where
  kept : Registry.Kept (asked log) s.world.registry
  noted : (opened log).map (·.map Prod.fst) = s.frames.map (·.registered)
  live : (opened log).flatten.Perm (Registry.live (asked log))

namespace Tracked

variable {log : List Event} {s s' : Scope}

/-- There is always an innermost scope. -/
theorem opened_eq (h : Tracked log s) : ∃ inner rest, opened log = inner :: rest ∧
    inner.map Prod.fst = s.frame.registered ∧
    rest.map (·.map Prod.fst) = s.outer.map (·.registered) := by
  have noted := h.noted
  cases ho : opened log with
  | nil =>
    rw [ho] at noted
    cases noted
  | cons inner rest =>
    rw [ho] at noted
    obtain ⟨hinner, hrest⟩ := List.cons.inj noted
    exact ⟨inner, rest, rfl, hinner, hrest⟩

theorem entered (h : Tracked log s) : Tracked (log ++ [.entered]) s.push := by
  have same : asked (log ++ [.entered]) = asked log := by simp [asked, Event.asked?]
  refine ⟨same ▸ h.kept, ?_, ?_⟩
  · rw [opened_append]
    exact congrArg ([] :: ·) h.noted
  · rw [opened_append, same]
    exact h.live

/-- A declaration keeps the scopes in step with the record. -/
theorem declared {id : TypeId} {t : Ty} (h : Tracked log s) (hd : s.Declares id t s')
    (hs : Registry.Spared (asked (log ++ [.asked (.registered id t)]))) :
    Tracked (log ++ [.asked (.registered id t)]) s' := by
  have more : asked (log ++ [.asked (.registered id t)]) = asked log ++ [.registered id t] :=
    asked_append
  rw [more] at hs
  have room : s.world.registry.size < 2 ^ 32 := by
    rw [h.kept.size_eq]
    exact hs.room
  obtain ⟨inner, rest, ho, hinner, hrest⟩ := h.opened_eq
  have opens : opened (log ++ [.asked (.registered id t)]) = (inner ++ [(id, t)]) :: rest := by
    rw [opened_append, ho]
    rfl
  refine ⟨?_, ?_, ?_⟩
  · rw [more]
    exact h.kept.registered (Registry.register_filled h.kept.tidy room hd.registry)
  · rw [opens]
    simp [frames, hd.frame, hd.outer, hinner, hrest]
  · have live := h.live
    rw [ho] at live
    rw [opens, more, Registry.live_registered, List.flatten_cons, List.append_assoc]
    have moved : (inner ++ ([(id, t)] ++ rest.flatten)).Perm
        ((inner :: rest).flatten ++ [(id, t)]) := by
      rw [List.flatten_cons, List.append_assoc]
      exact List.perm_append_comm.append_left _
    exact moved.trans (live.append_right _)

/-- Closing a scope takes back what it noted, and nothing else. -/
theorem left {f : Frame} {fs : List Frame} (h : Tracked log s) (ho : s.outer = f :: fs)
    (hs : Registry.Spared (asked (log ++ .left ::
      (s.world.registry.trace (s.frame.registered.map .deregister)).1.map .asked))) :
    Tracked (log ++ .left ::
      (s.world.registry.trace (s.frame.registered.map .deregister)).1.map .asked) s.pop := by
  have more : asked (log ++ .left ::
      (s.world.registry.trace (s.frame.registered.map .deregister)).1.map .asked) =
        asked log ++ (s.world.registry.trace (s.frame.registered.map .deregister)).1 := by
    rw [asked_append]
    exact congrArg (asked log ++ ·) (asked_map _)
  have registry : s.pop.world.registry =
      (s.world.registry.trace (s.frame.registered.map .deregister)).2 := by
    rw [Registry.trace_deregister, pop, ho]
    rfl
  obtain ⟨inner, rest, hopened, hinner, hrest⟩ := h.opened_eq
  have opens : opened (log ++ .left ::
      (s.world.registry.trace (s.frame.registered.map .deregister)).1.map .asked) = rest := by
    rw [opened_append, List.foldl_cons, foldl_next_deregister, hopened]
    rfl
  rw [more] at hs
  refine ⟨?_, ?_, ?_⟩
  · rw [more, registry]
    exact h.kept.trace _ hs
  · rw [opens, hrest, ho, pop, ho]
    rfl
  · have live := h.live
    rw [hopened, List.flatten_cons] at live
    -- no identifier is noted in two scopes
    have nodup : ((inner ++ rest.flatten).map Prod.fst).Nodup :=
      (live.map Prod.fst).nodup_iff.mpr
        ((Registry.live_sublist_issued _).nodup h.kept.distinct)
    rw [List.map_append, hinner] at nodup
    have apart := (List.nodup_append.mp nodup).2.2
    have gone : inner.filter (·.1 ∉ s.frame.registered) = [] := by
      rw [List.filter_eq_nil_iff]
      intro p hp
      have : p.1 ∈ s.frame.registered := hinner ▸ List.mem_map_of_mem hp
      simpa using this
    have stay : rest.flatten.filter (·.1 ∉ s.frame.registered) = rest.flatten := by
      rw [List.filter_eq_self]
      intro p hp
      have : p.1 ∉ s.frame.registered := fun hmem => apart _ hmem _ (List.mem_map_of_mem hp) rfl
      simpa using this
    rw [opens, more, Registry.live_trace_deregister]
    have filtered := live.filter (·.1 ∉ s.frame.registered)
    rwa [List.filter_append, gone, stay, List.nil_append] at filtered

theorem step (h : Tracked log s) (a : Step) (hs : Registry.Spared (asked (log ++ (s.step a).1))) :
    Tracked (log ++ (s.step a).1) (s.step a).2 := by
  have done := step_done s a
  generalize (s.step a).1 = events, (s.step a).2 = s' at done hs
  cases done with
  | nothing => simpa using h
  | entered => exact h.entered
  | left f fs ho => exact h.left ho hs
  | declared id t s' hd => exact h.declared hd hs

theorem trace (h : Tracked log s) (steps : List Step)
    (hs : Registry.Spared (asked (log ++ (s.trace steps).1))) :
    Tracked (log ++ (s.trace steps).1) (s.trace steps).2 := by
  induction steps generalizing log s with
  | nil => simpa [Scope.trace] using h
  | cons a steps ih =>
    have assoc : log ++ (s.trace (a :: steps)).1 =
        (log ++ (s.step a).1) ++ ((s.step a).2.trace steps).1 := by simp [Scope.trace]
    rw [assoc] at hs ⊢
    have spared : Registry.Spared (asked (log ++ (s.step a).1)) := by
      rw [asked_append] at hs
      exact hs.of_append
    exact ih (h.step a spared) hs

theorem root (hregistry : s.world.registry = .empty) (houter : s.outer = [])
    (hframe : s.frame.registered = []) : Tracked [] s where
  kept := hregistry ▸ Registry.Kept.empty
  noted := by simp [opened, frames, houter, hframe]
  live := List.Perm.refl []

end Tracked

end Scope

/-- **Identifiers of types never dangle and are never mixed up.**  A registry answers every sequence
of requests as its record says.  Where the requests come from scopes that are opened and closed and
types that are declared in them, an identifier finds its type exactly as long as its scope is
open. -/
theorem typeIds_faithful :
    (∀ ops : List Registry.Op, Registry.Spared (Registry.empty.trace ops).1 →
      Registry.Faithful (Registry.empty.trace ops).1 (Registry.empty.trace ops).2) ∧
    ∀ (s : Scope) (steps : List Scope.Step), s.world.registry = .empty → s.outer = [] →
      s.frame.registered = [] → Registry.Spared (Scope.asked (s.trace steps).1) →
      Registry.Faithful (Scope.asked (s.trace steps).1) (s.trace steps).2.world.registry ∧
      ∀ id t, .registered id t ∈ Scope.asked (s.trace steps).1 →
        (s.trace steps).2.world.registry.lookup id =
          if (id, t) ∈ (Scope.opened (s.trace steps).1).flatten then some t else none := by
  refine ⟨fun ops hs => (Registry.Kept.empty.trace ops hs).faithful, ?_⟩
  intro s steps hregistry houter hframe hs
  have tracked := (Scope.Tracked.root hregistry houter hframe).trace steps hs
  rw [List.nil_append] at tracked
  have faithful := tracked.kept.faithful
  refine ⟨faithful, fun id t ht => ?_⟩
  rw [faithful.lookup id t ht]
  simp only [tracked.live.mem_iff]

/-- A place is used again: the first identifier that was given out for it finds nothing any more,
the second finds the new type, in a registry and after a scope is closed. -/
theorem typeIds_faithful_reused :
    let r := Registry.empty.trace [.register Builtin.bool, .deregister ⟨0, 0⟩, .register Builtin.u8]
    let s := (Scope.standard .standard).trace
      [.enter, .type "A" Builtin.u8 .null, .type "A" Builtin.u8 .null, .leave,
        .type "B" Builtin.bool .null]
    r.2.lookup ⟨0, 0⟩ = none ∧ r.2.lookup ⟨0, 1⟩ = some Builtin.u8 ∧
      s.2.world.registry.lookup ⟨0, 0⟩ = none ∧
      s.2.world.registry.lookup ⟨0, 1⟩ = some Builtin.bool := by
  intro r s
  have bare := typeIds_faithful.1
    [.register Builtin.bool, .deregister ⟨0, 0⟩, .register Builtin.u8]
    (Registry.spared_of_length (by decide))
  have nested := typeIds_faithful.2 (Scope.standard .standard)
    [.enter, .type "A" Builtin.u8 .null, .type "A" Builtin.u8 .null, .leave,
      .type "B" Builtin.bool .null]
    rfl rfl rfl (Registry.spared_of_length (by decide +kernel))
  exact ⟨(bare.lookup ⟨0, 0⟩ Builtin.bool (by decide)).trans (by decide),
    (bare.lookup ⟨0, 1⟩ Builtin.u8 (by decide)).trans (by decide),
    (nested.2 ⟨0, 0⟩ Builtin.u8 (by decide +kernel)).trans (by decide +kernel),
    (nested.2 ⟨0, 1⟩ Builtin.bool (by decide +kernel)).trans (by decide +kernel)⟩

/-- Places are numbered with 32 bits: after one type and as many more as there are numbers, with
none taken back, the last one has the identifier of the first, and that finds the first type. -/
theorem typeIds_exhausted :
    let r := Registry.empty.trace
      ((Builtin.bool :: List.replicate (2 ^ 32) Builtin.u8).map .register)
    (∀ index, r.1.countP (Registry.Event.freesPlace index) = 0) ∧
      .registered ⟨0, 0⟩ Builtin.bool ∈ r.1 ∧ .registered ⟨0, 0⟩ Builtin.u8 ∈ r.1 ∧
      r.2.lookup ⟨0, 0⟩ = some Builtin.bool := by
  intro r
  have last : ∀ n, 0 < n →
      (Builtin.bool :: List.replicate n Builtin.u8)[n]? = some Builtin.u8 := by
    intro n hn
    rw [List.getElem?_cons, if_neg (Nat.ne_of_gt hn), List.getElem?_replicate,
      if_pos (Nat.sub_lt hn Nat.one_pos)]
  refine ⟨fun index => Registry.countP_freesPlace_register _ _ index,
    Registry.registered_mem_trace [] (i := 0) rfl, ?_, ?_⟩
  · exact Registry.registered_mem_trace [] (last (2 ^ 32) (by decide))
  · have after : r.2 = ⟨_, []⟩ := Registry.trace_register [] _
    rw [after, Registry.lookup_eq_some]
    rfl

end Gauge
