import Mathlib.Logic.Function.Basic
import Gauge.Proofs.Compile
import Gauge.Proofs.Module.Resolved

/-!
# Proofs — listings do not depend on numbers

A `Renumbering` gives all that a listing is told other numbers: its modules and functions, and the
values and labels of each function.  The text stays the same, as long as the functions that it shows
were declared before (`listing_renumbered`).  Those of a program are, so its listing is the same
however the numbers are handed out.

Two texts are written side by side: the one has mentioned what the other has, under other numbers
and in the same order (`Write.Mirrors`).
-/

namespace Gauge

/-! ### Other numbers -/

/-- Other numbers for what a listing is told, different ones for what was different.  Values and
labels belong to a function, and the functions, which are counted, need not agree on them. -/
structure Renumbering where
  modules : Nat → Nat
  functions : Nat → Nat
  values : Nat → ValueId → ValueId
  labels : Nat → Label → Label
  functions_injective : Function.Injective functions
  values_injective : ∀ n, Function.Injective (values n)
  labels_injective : ∀ n, Function.Injective (labels n)

/-- How many functions were begun. -/
def Entry.begun (n : Nat) : Entry → Nat
  | .beginFunction => n + 1
  | _ => n

namespace Renumbering

variable (σ : Renumbering) (n : Nat)

def callee (c : Callee) : Callee := { c with id := σ.functions c.id }

def event : Event → Event
  | .literal id value type => .literal (σ.values n id) value type
  | .null id type => .null (σ.values n id) type
  | .allocate id type name => .allocate (σ.values n id) type name
  | .store target value => .store (σ.values n target) (σ.values n value)
  | .load id type address => .load (σ.values n id) type (σ.values n address)
  | .convert how id source sourceType type =>
    .convert how (σ.values n id) (σ.values n source) sourceType type
  | .nonNull id source => .nonNull (σ.values n id) (σ.values n source)
  | .call id c arguments => .call (σ.values n id) (σ.callee c) (arguments.map (σ.values n))
  | .binary id op left right operandType type =>
    .binary (σ.values n id) op (σ.values n left) (σ.values n right) operandType type
  | .unary id op operand type => .unary (σ.values n id) op (σ.values n operand) type
  | .branch id type condition otherwise after =>
    .branch (σ.values n id) type (σ.values n condition) (σ.labels n otherwise) (σ.labels n after)
  | .branchResult id value => .branchResult (σ.values n id) (σ.values n value)
  | .label here => .label (σ.labels n here)
  | .jump target => .jump (σ.labels n target)
  | .ret value => .ret (value.map (σ.values n))

def entry : Entry → Entry
  | .enterModule id name file => .enterModule (σ.modules id) name file
  | .declare id name symbol type abi => .declare (σ.functions id) name symbol type abi
  | .enterFunction id result arguments =>
    .enterFunction (σ.functions id) result (arguments.map fun a => (σ.values n a.1, a.2))
  | .event e => .event (σ.event n e)
  | .leaveModule => .leaveModule
  | .beginFunction => .beginFunction
  | .leaveFunction => .leaveFunction

/-- The entries with other numbers, behind `n` functions. -/
def entries : Nat → List Entry → List Entry
  | _, [] => []
  | n, e :: es => σ.entry n e :: entries (e.begun n) es

def mentions (m : Mentions) : Mentions := ⟨m.values.map (σ.values n), m.labels.map (σ.labels n)⟩

def symbols (s : Symbols) : Symbols := s.map fun p => (σ.functions p.1, p.2)

end Renumbering

/-- What is numbered by its first mention keeps its number. -/
theorem numberOf_map {α β : Type} [DecidableEq α] [DecidableEq β] {f : α → β}
    (hf : Function.Injective f) (seen : List α) (a : α) :
    numberOf (seen.map f) (f a) = ((numberOf seen a).1, (numberOf seen a).2.map f) := by
  have same : (seen.map f).findIdx? (· = f a) = seen.findIdx? (· = a) := by
    rw [List.findIdx?_map]
    congr 1
    funext b
    simp [hf.eq_iff]
  unfold numberOf
  rw [same]
  cases seen.findIdx? (· = a) with
  | some i => rfl
  | none => simp

theorem Symbols.lookup_renumbered (σ : Renumbering) (id : Nat) :
    ∀ s : Symbols, (σ.symbols s).lookup (σ.functions id) = s.lookup id
  | [] => rfl
  | (other, symbol) :: s => by
    rw [Renumbering.symbols, List.map_cons, List.lookup_cons, List.lookup_cons]
    rw [show (σ.functions id == σ.functions other) = (id == other) by
      simp [σ.functions_injective.eq_iff]]
    rw [← lookup_renumbered σ id s]
    rfl

/-- A function that was declared is shown as before. -/
theorem Symbols.show_renumbered (σ : Renumbering) {s : Symbols} {id : Nat}
    (h : (s.lookup id).isSome = true) : (σ.symbols s).show (σ.functions id) = s.show id := by
  obtain ⟨symbol, hs⟩ := Option.isSome_iff_exists.mp h
  rw [Symbols.show, Symbols.show, lookup_renumbered, hs]
  rfl

/-! ### Two texts -/

namespace Write

variable {α β : Type} {φ φ' ψ : Mentions → Mentions}

/-- The steps write the same, where the second mentions what `φ` makes of what the first mentions,
and what `ψ` makes of it behind the step. -/
def Mirrors (φ ψ : Mentions → Mentions) (x y : Write α) : Prop :=
  ∀ m, y.run (φ m) = (fun r => (r.1, ψ r.2)) <$> x.run m

theorem mirrors_pure (a : α) : Mirrors φ φ (pure a) (pure a) := fun m => by
  simp only [StateT.run_pure, map_pure]

theorem Mirrors.bind {x x' : Write α} {f f' : α → Write β} (hx : Mirrors φ φ' x x')
    (hf : ∀ a, Mirrors φ' ψ (f a) (f' a)) : Mirrors φ ψ (x >>= f) (x' >>= f') := by
  intro m
  rw [StateT.run_bind, StateT.run_bind, hx m, bind_map_left, map_bind]
  exact bind_congr fun r => hf r.1 r.2

theorem mirrors_lift (x : Traced Fault α) : Mirrors φ φ (liftM x) (liftM x) := by
  intro m
  show (x >>= fun a => pure (a, φ m)) = _ <$> (x >>= fun a => pure (a, m))
  simp only [map_bind, map_pure]

variable (σ : Renumbering) (n : Nat)

theorem mirrors_value (id : ValueId) :
    Mirrors (σ.mentions n) (σ.mentions n) (value id) (value (σ.values n id)) := by
  intro m
  have same := numberOf_map (σ.values_injective n) m.values id
  show pure ("%" ++ toString (numberOf _ _).1, (⟨(numberOf _ _).2, _⟩ : Mentions)) = _
  rw [Renumbering.mentions, same]
  rfl

theorem mirrors_label (l : Label) :
    Mirrors (σ.mentions n) (σ.mentions n) (label l) (label (σ.labels n l)) := by
  intro m
  have same := numberOf_map (σ.labels_injective n) m.labels l
  show pure ("L" ++ toString (numberOf _ _).1, (⟨_, (numberOf _ _).2⟩ : Mentions)) = _
  rw [Renumbering.mentions, same]
  rfl

theorem mirrors_values : ∀ ids : List ValueId,
    Mirrors (σ.mentions n) (σ.mentions n) (values ids) (values (ids.map (σ.values n)))
  | [] => mirrors_pure _
  | id :: ids =>
    (mirrors_value σ n id).bind fun _ => (mirrors_values ids).bind fun _ => mirrors_pure _

theorem mirrors_parameters : ∀ as : List (ValueId × Argument),
    Mirrors (σ.mentions n) (σ.mentions n) (parameters as)
      (parameters (as.map fun a => (σ.values n a.1, a.2)))
  | [] => mirrors_pure _
  | a :: as =>
    (mirrors_value σ n a.1).bind fun _ => (mirrors_parameters as).bind fun _ => mirrors_pure _

end Write

open Write

section Texts

variable {σ : Renumbering} {n : Nat} {structs : Structs}

/-- An event mentions what it did, in the same order, and shows the same function. -/
theorem Event.write_mirrors {shown shown' : Callee → String} (e : Event)
    (h : ∀ id c arguments, e = .call id c arguments → shown' (σ.callee c) = shown c) :
    Mirrors (σ.mentions n) (σ.mentions n) (e.write structs shown)
      ((σ.event n e).write structs shown') := by
  cases e with
  | literal id _ _ | null id _ | allocate id _ _ =>
    exact (mirrors_value σ n id).bind fun _ => mirrors_pure _
  | store a b | load a _ b | convert _ a b _ _ | nonNull a b | unary a _ b _ | branchResult a b =>
    exact (mirrors_value σ n a).bind fun _ => (mirrors_value σ n b).bind fun _ => mirrors_pure _
  | call id c arguments =>
    have same := h id c arguments rfl
    simp only [Renumbering.event, Event.write, same]
    exact (mirrors_value σ n id).bind fun _ =>
      (mirrors_values σ n arguments).bind fun _ => mirrors_pure _
  | binary id _ a b _ _ =>
    exact (mirrors_value σ n id).bind fun _ => (mirrors_value σ n a).bind fun _ =>
      (mirrors_value σ n b).bind fun _ => (mirrors_lift _).bind fun _ => mirrors_pure _
  | branch id _ condition l l' =>
    exact (mirrors_value σ n id).bind fun _ => (mirrors_value σ n condition).bind fun _ =>
      (mirrors_label σ n l).bind fun _ => (mirrors_label σ n l').bind fun _ => mirrors_pure _
  | label l | jump l => exact (mirrors_label σ n l).bind fun _ => mirrors_pure _
  | ret value =>
    cases value with
    | none => exact mirrors_pure _
    | some id => exact (mirrors_value σ n id).bind fun _ => mirrors_pure _

namespace Entry

/-- The function that an entry shows: the one that it calls or defines. -/
def function? : Entry → Option Nat
  | .enterFunction id _ _ => some id
  | .event (.call _ c _) => some c.id
  | _ => none

/-- Every function was declared before it is shown. -/
def Declared : Symbols → List Entry → Prop
  | _, [] => True
  | symbols, e :: es =>
    (∀ id, e.function? = some id → (symbols.lookup id).isSome = true) ∧
      Declared (e.declared symbols) es

/-- An entry is written as its counterpart is. -/
theorem write_mirrors {symbols : Symbols} (e : Entry)
    (h : ∀ id, e.function? = some id → (symbols.lookup id).isSome = true) :
    Mirrors (σ.mentions n) (σ.mentions (e.begun n)) (e.write structs symbols)
      ((σ.entry n e).write structs (σ.symbols symbols)) := by
  cases e with
  | enterFunction id result arguments =>
    simp only [Renumbering.entry, write, Symbols.show_renumbered σ (h id rfl)]
    exact (mirrors_parameters σ n arguments).bind fun _ => mirrors_pure _
  | event e =>
    refine Event.write_mirrors e ?_
    rintro id c arguments rfl
    exact Symbols.show_renumbered σ (h c.id rfl)
  | beginFunction => exact fun _ => rfl
  | _ => exact mirrors_pure _

theorem declared_renumbered (symbols : Symbols) (e : Entry) :
    (σ.entry n e).declared (σ.symbols symbols) = σ.symbols (e.declared symbols) := by
  cases e <;> rfl

/-- The text of an entry stands in front of that of the others. -/
theorem writeAll_cons (symbols : Symbols) (e : Entry) (es : List Entry) (m : Mentions) :
    Prod.fst <$> (writeAll structs symbols (e :: es)).run m =
      (e.write structs symbols).run m >>= fun r =>
        (r.1 ++ ·) <$> (Prod.fst <$> (writeAll structs (e.declared symbols) es).run r.2) := by
  simp only [writeAll, StateT.run_bind, StateT.run_pure, map_eq_pure_bind, bind_assoc, pure_bind]

/-- By induction on the entries: what was mentioned has other numbers, and what was declared too. -/
theorem writeAll_renumbered : ∀ (es : List Entry) {n : Nat} {symbols : Symbols} (m : Mentions),
    Declared symbols es →
      Prod.fst <$> (writeAll structs (σ.symbols symbols) (σ.entries n es)).run (σ.mentions n m) =
        Prod.fst <$> (writeAll structs symbols es).run m
  | [], _, _, _, _ => rfl
  | e :: es, n, symbols, m, h => by
    rw [Renumbering.entries, writeAll_cons, writeAll_cons, write_mirrors e h.1 m, bind_map_left,
      declared_renumbered]
    refine bind_congr fun r => ?_
    rw [writeAll_renumbered es r.2 h.2]

theorem listing_eq (es : List Entry) :
    listing structs es = Prod.fst <$> (writeAll structs [] es).run ⟨[], []⟩ := by
  rw [map_eq_pure_bind]
  rfl

/-! ### Programs -/

theorem lookup_declared {symbols : Symbols} {id : Nat} (e : Entry)
    (h : (symbols.lookup id).isSome = true) : ((e.declared symbols).lookup id).isSome = true := by
  cases e with
  | declare other _ _ _ _ =>
    rw [declared, List.lookup_cons]
    split
    · rfl
    · exact h
  | _ => exact h

theorem declared_of_known : ∀ {es : List Entry} {symbols : Symbols},
    (∀ e ∈ es, ∀ id, e.function? = some id → (symbols.lookup id).isSome = true) →
    Declared symbols es
  | [], _, _ => trivial
  | e :: es, symbols, h => by
    obtain ⟨first, rest⟩ := List.forall_mem_cons.mp h
    exact ⟨first, declared_of_known fun d hd id hid => lookup_declared e (rest d hd id hid)⟩

/-- Behind the declarations, all that is declared may be shown. -/
theorem declared_append : ∀ {cs : List Callee} {es : List Entry} {symbols : Symbols},
    (∀ e ∈ es, ∀ id, e.function? = some id →
      (∃ c ∈ cs, c.id = id) ∨ (symbols.lookup id).isSome = true) →
    Declared symbols (cs.map Callee.entry ++ es)
  | [], es, symbols, h => by
    refine declared_of_known fun e he id hid => (h e he id hid).resolve_left ?_
    rintro ⟨c, hc, -⟩
    exact List.not_mem_nil hc
  | c :: cs, es, symbols, h => by
    refine ⟨fun id => nofun, declared_append fun e he id hid => ?_⟩
    rcases h e he id hid with ⟨d, hd, rfl⟩ | known
    · rcases List.mem_cons.mp hd with rfl | hd
      · refine .inr ?_
        rw [Callee.entry, declared, List.lookup_cons, beq_self_eq_true]
        rfl
      · exact .inl ⟨d, hd, rfl⟩
    · exact .inr (lookup_declared c.entry known)

/-- A function that is shown is one of those that are called or defined. -/
theorem Writable.function {F : Callee → Prop} {e : Entry} {id : Nat} (h : e.Writable F)
    (hid : e.function? = some id) : ∃ c, F c ∧ c.id = id := by
  unfold function? at hid
  split at hid
  · cases hid
    exact h
  · cases hid
    exact ⟨_, h, rfl⟩
  · cases hid

end Entry

end Texts

namespace Module

variable {limits : Limits} {tree : ModuleSyntax} {m : Module} {scope s : Scope}
  {reserved : Reserved}
  {t : Structs}

/-- All functions of an accepted module are declared. -/
theorem Built.mem_declarations (h : Built limits tree m scope reserved s t) {id : Nat} {c : Callee}
    (hc : scope.callee? id = some c) : c ∈ m.declarations := by
  have length := h.allResolved.length
  have declarations := h.declarations
  obtain rfl := h.reserved_eq
  have inside : id < (functionsOf tree.items).length := by
    rw [← length]
    by_contra outside
    rw [Scope.callee?, List.getElem?_eq_none_iff.mpr (Nat.le_of_not_lt outside)] at hc
    cases hc
  have mem : (⟨id, _⟩ : PendingFunction) ∈ pendingFunctions 0 (functionsOf tree.items) :=
    mem_pendingFunctions.mpr (List.getElem?_eq_getElem inside)
  obtain ⟨d, hd, hcallee⟩ := forall_mem_of_mapM_eq_ok declarations _ mem
  cases hcallee.symm.trans (Scope.callee_of_some hc)
  exact hd

/-- In a module every function is declared before it is named. -/
theorem entries_declared {name file : String}
    (h : (build (Scope.standard limits).push name file tree).outcome = .ok (m, scope)) :
    Entry.Declared [] m.entries := by
  obtain ⟨reserved, s, t, built⟩ := built_of_build h
  have writable := entries_writable (build_functions h)
  simp only [entries, List.cons_append, List.append_assoc] at writable ⊢
  refine ⟨by simp [Entry.function?], Entry.declared_append fun e he id hid => .inl ?_⟩
  obtain ⟨c, ⟨other, hc⟩, hcid⟩ := (writable e (List.mem_cons_of_mem _
    (List.mem_append_right _ he))).function hid
  exact ⟨c, built.mem_declarations hc, hcid⟩

end Module

/-- The listing of the program in a file whose numbers are handed out in another way. -/
def compileAs (σ : Renumbering) (limits : Limits) (file source : String) : Except Failure String :=
  do
  let (m, scope) ← analyze limits (moduleName file) file source
  Failure.ofFault (Entry.listing scope.structs (σ.entries 0 m.entries)).outcome

/-- **Listings do not depend on numbers.**  Whatever a listing is told, if every function was
declared before it is called or defined, then other numbers for its modules, functions, values and
labels leave the text as it is.  So a program has the same listing however its numbers are handed
out. -/
theorem listing_renumbered (σ : Renumbering) :
    (∀ (structs : Structs) (entries : List Entry), Entry.Declared [] entries →
      Entry.listing structs (σ.entries 0 entries) = Entry.listing structs entries) ∧
    ∀ limits file source, compileAs σ limits file source = compile limits file source := by
  have same : ∀ (structs : Structs) (entries : List Entry), Entry.Declared [] entries →
      Entry.listing structs (σ.entries 0 entries) = Entry.listing structs entries := by
    intro structs entries h
    rw [Entry.listing_eq, Entry.listing_eq]
    exact Entry.writeAll_renumbered entries ⟨[], []⟩ h
  refine ⟨same, fun limits file source => ?_⟩
  cases ha : analyze limits (moduleName file) file source with
  | error f => rw [compileAs, compile, ha]; rfl
  | ok r =>
    obtain ⟨tokens, -, h⟩ := bind_eq_ok.mp ha
    obtain ⟨tree, -, h⟩ := bind_eq_ok.mp h
    rw [compileAs, compile, ha]
    show Failure.ofFault (Entry.listing _ _).outcome = Failure.ofFault (Entry.listing _ _).outcome
    rw [same _ _ (Module.entries_declared h)]

/-- Storage and results change their names, and labels are counted from the number of their
function. -/
def Renumbering.swapped : Renumbering where
  modules _ := 0
  functions := (· + 40)
  values _ id :=
    match id with
    | .slot k => .temp k
    | .temp k => .slot k
  labels n l := ⟨l.number + n⟩
  functions_injective _ _ h := Nat.add_right_cancel h
  values_injective _ a b h := by
    cases a <;> cases b <;> simp_all
  labels_injective n a b h := by
    obtain ⟨i⟩ := a
    obtain ⟨j⟩ := b
    simpa using h

/-- A module with a function that calls itself; its label and its values have numbers that do not
start at zero. -/
def Entry.looping : List Entry :=
  let f : Callee := ⟨7, "f", ⟨.none, none, ⟨some "f", Builtin.void, [Builtin.u8]⟩, .native⟩⟩
  [.enterModule 3 "m" "m.g", f.entry, .beginFunction,
    .enterFunction 7 Builtin.void [(.slot 2, ⟨2, "a", Builtin.u8⟩)], .event (.label ⟨9⟩),
    .event (.literal (.temp 5) 1 Builtin.u8), .event (.call (.temp 6) f [.temp 5]),
    .event (.jump ⟨9⟩), .leaveFunction, .leaveModule]

/-- The text of `looping` under other numbers. -/
theorem listing_renumbered_looping :
    Entry.Declared [] Entry.looping ∧
      (Entry.listing .empty (Renumbering.swapped.entries 0 Entry.looping)).outcome =
        .ok ("module m (m.g)\ndeclare @_P1fU1 f : def f(U8) -> Void [Practical]\n" ++
          "def @_P1fU1(%0 a: U8) -> Void \x7b\nL0:\n    %1 = 1 : U8\n" ++
          "    %2 = call @_P1fU1(%1) : Void\n    jump L0\n\x7d\nend module\n") := by
  have declared : Entry.Declared [] Entry.looping := by
    simp [Entry.looping, Entry.Declared, Entry.function?, Entry.declared, Callee.entry]
  refine ⟨declared, ?_⟩
  rw [(listing_renumbered .swapped).1 .empty _ declared]
  decide +kernel

/-- A function that was not declared is shown by its number, so other numbers change the text of
what defines it, though nothing is called there. -/
theorem listing_undeclared :
    let entries : List Entry := [.enterFunction 7 Builtin.void []]
    (∀ e ∈ entries, ∀ id c arguments, e ≠ .event (.call id c arguments)) ∧
      (Entry.listing .empty entries).outcome = .ok "def @7() -> Void \x7b\n" ∧
      (Entry.listing .empty (Renumbering.swapped.entries 0 entries)).outcome =
        .ok "def @47() -> Void \x7b\n" := by
  refine ⟨?_, ?_, ?_⟩
  · rintro e he id c arguments rfl
    cases List.mem_singleton.mp he
  · decide +kernel
  · decide +kernel

end Gauge
