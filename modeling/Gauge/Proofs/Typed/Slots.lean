import Gauge.Proofs.Module

/-!
# Proofs — the storage of variables

Checking hands out storage in order: the variables defined in a tree have the numbers from `a` up to
`b`, each its own, and every variable that is used is one that was defined before, in the same block
or around it.  `Typed.Scoped F V a b` says so of a tree in whose surroundings the variables `V` are
defined; the functions that are called are among `F`.  The trees that checking builds have it
(`Expr.Yields.scoped`, `Module.build_functions`).
-/

namespace Gauge

/-- The variables in scope behind a statement. -/
def TypedStmt.extend (V : List Nat) : TypedStmt → List Nat
  | .define k _ _ _ => k :: V
  | _ => V

/-- The variables in scope behind some statements. -/
def TypedStmt.extendAll (V : List Nat) : List TypedStmt → List Nat
  | [] => V
  | s :: ss => TypedStmt.extendAll (s.extend V) ss

mutual

/-- The expression calls functions of `F`, and uses variables of `V` and those it defines, which
have the numbers from `a` up to `b`. -/
def Typed.Scoped (F : Callee → Prop) (V : List Nat) (a b : Nat) : Typed → Prop
  | .mk _ n => n.Scoped F V a b

def Node.Scoped (F : Callee → Prop) (V : List Nat) (a b : Nat) : Node → Prop
  | .constant _ => a = b
  | .variable k _ => k ∈ V ∧ a = b
  | .unary _ e | .addressOf e | .dereference e | .cast e => e.Scoped F V a b
  | .binary _ x y _ | .logical _ x y | .assign x y => ∃ m, x.Scoped F V a m ∧ y.Scoped F V m b
  | .call c es => F c ∧ Typed.ScopedAll F V a b es
  | .conditional c t none => ∃ m, c.Scoped F V a m ∧ t.Scoped F V m b
  | .conditional c t (some e) =>
    ∃ m m', c.Scoped F V a m ∧ t.Scoped F V m m' ∧ e.Scoped F V m' b
  | .block ss none => TypedStmt.ScopedAll F V a b ss
  | .block ss (some r) =>
    ∃ m, TypedStmt.ScopedAll F V a m ss ∧ r.Scoped F (TypedStmt.extendAll V ss) m b

def Typed.ScopedAll (F : Callee → Prop) (V : List Nat) (a b : Nat) : List Typed → Prop
  | [] => a = b
  | e :: es => ∃ m, e.Scoped F V a m ∧ Typed.ScopedAll F V m b es

def TypedStmt.Scoped (F : Callee → Prop) (V : List Nat) (a b : Nat) : TypedStmt → Prop
  | .expr e => e.Scoped F V a b
  | .define k _ _ none => k = a ∧ b = a + 1
  | .define k _ _ (some e) => e.Scoped F V a k ∧ b = k + 1
  | .ret none => a = b
  | .ret (some e) => e.Scoped F V a b
  | .loop c body => ∃ m, c.Scoped F V a m ∧ body.Scoped F V m b

def TypedStmt.ScopedAll (F : Callee → Prop) (V : List Nat) (a b : Nat) : List TypedStmt → Prop
  | [] => a = b
  | s :: ss => ∃ m, s.Scoped F V a m ∧ TypedStmt.ScopedAll F (s.extend V) m b ss

end

variable {F : Callee → Prop}

/-! ### One node at a time -/

namespace Typed

variable {scope : Scope} {limit : Weight} {e e' : Typed} {p q : Progress} {V : List Nat} {a b : Nat}
  {target : Ty} {mandatory explicit : Bool}

theorem scoped_iff : e.Scoped F V a b ↔ e.node.Scoped F V a b := by
  obtain ⟨f, n⟩ := e
  exact Iff.rfl

/-- A conversion changes nothing but what is known of a node. -/
theorem Converted.node_eq (h : Converted scope target mandatory explicit e e') :
    e'.node = e.node := by
  cases h with
  | same _ => rfl
  | adopted ha =>
    cases ha with
    | integer _ _ _ _ | null _ _ _ _ => rfl
  | chain _ _ | kept _ => rfl

theorem Converted.scoped (h : Converted scope target mandatory explicit e e')
    (he : e.Scoped F V a b) : e'.Scoped F V a b := by
  rw [scoped_iff, h.node_eq, ← scoped_iff]
  exact he

theorem scoped_of_meet {expected : Expected} (h : (e.meet scope limit expected).Gives p e' q)
    (he : e.Scoped F V a p.slots) : e'.Scoped F V a q.slots := by
  obtain ⟨hq, ⟨rfl, -⟩ | ⟨t, -, -, hc⟩⟩ := meet_gives h
  · rw [hq]
    exact he
  · rw [hq]
    exact hc.scoped he

theorem scoped_of_decay (h : (e.decay scope limit).Gives p e' q) (he : e.Scoped F V a p.slots) :
    e'.Scoped F V a q.slots := by
  obtain ⟨hq, ⟨rfl, -⟩ | hc⟩ := decay_gives h
  · rw [hq]
    exact he
  · rw [hq]
    exact hc.scoped he

theorem Passed.scoped {es es' : List Typed} {ts : List Ty} (h : Passed scope es ts es') :
    ∀ {a : Nat}, Typed.ScopedAll F V a b es → Typed.ScopedAll F V a b es' := by
  induction h with
  | nil => exact fun he => he
  | cons first _ ih =>
    rintro a ⟨m, hf, hr⟩
    exact ⟨m, first.scoped hf, ih hr⟩

/-- The value of a block, if it has one, takes the storage from `a` up to `b`. -/
def ScopedEnd (F : Callee → Prop) (V : List Nat) (a b : Nat) : Option Typed → Prop
  | none => a = b
  | some e => e.Scoped F V a b

theorem block_scoped {expected : Expected} {span : Span} {ts : List TypedStmt} {r : Option Typed}
    {m : Nat} (hts : TypedStmt.ScopedAll F V a m ts)
    (hr : ScopedEnd F (TypedStmt.extendAll V ts) m b r) :
    (block scope expected span ts r).Scoped F V a b := by
  rcases block_cases scope expected span ts r with ⟨e, rfl, he⟩ | ⟨rfl, t, -, -, he⟩ | ⟨rfl, -, he⟩
  · rw [he]
    exact ⟨m, hts, hr⟩
  · obtain rfl : m = b := hr
    rw [he]
    exact hts
  · obtain rfl : m = b := hr
    rw [he]
    exact hts

end Typed

/-! ### Whole trees -/

/-- The scope has variables of `V` and functions of `F` only. -/
structure Scope.Within (F : Callee → Prop) (V : List Nat) (s : Scope) : Prop where
  names : s.Over (fun _ => True) fun v => v.slot ∈ V
  callee : ∀ {id c}, s.callee? id = some c → F c

namespace Scope.Within

variable {V W : List Nat} {s s' : Scope}

theorem mono (h : s.Within F V) (hVW : ∀ k ∈ V, k ∈ W) : s.Within F W :=
  ⟨h.names.mono (fun _ ht => ht) fun v => hVW v.slot, h.callee⟩

theorem push (h : s.Within F V) : s.push.Within F V := ⟨h.names.push, h.callee⟩

theorem setReturnType (h : s.Within F V) (t : Ty) : (s.setReturnType t).Within F V :=
  ⟨h.names.setReturnType t, h.callee⟩

theorem define {v : Variable} {position : Position} (h : s.Within F V)
    (ha : s.addVariable v position = .ok s') : s'.Within F (v.slot :: V) := by
  refine ⟨(h.mono fun _ => List.mem_cons_of_mem _).names.addVariable (.head _) ha, ?_⟩
  intro id c hc
  rw [Scope.callee?, (Scope.addVariable_world ha).1] at hc
  exact h.callee hc

end Scope.Within

mutual

/-- By induction on the rules: storage is handed out to the parts one after the other. -/
theorem Expr.Yields.scoped {s : Scope} {w : Weight} {x : Expected} {e : Expr} {p q : Progress}
    {b : Typed} {V : List Nat} (h : Expr.Yields s w x e p b q) (hs : s.Within F V) :
    b.Scoped F V p.slots q.slots := by
  match h, hs with
  | .literal h, hs =>
    obtain ⟨rfl, ⟨n, r, -, rfl⟩ | ⟨b, rfl⟩ | ⟨r, rfl⟩⟩ := Literal.typed_gives h
    all_goals exact Eq.refl p.slots
  | .identifier h, hs =>
    obtain ⟨rfl, v, hv, rfl⟩ := Typed.ofName_gives h
    exact ⟨hs.names.lookupVariable hv, rfl⟩
  | .unary he h, hs =>
    obtain ⟨hq, o, -, t, operand', r, -, -, hc, -, rfl⟩ := Typed.unary_gives h
    rw [hq]
    exact hc.scoped (he.scoped hs)
  | .addressOf he h, hs =>
    obtain ⟨rfl, -, rfl⟩ := Typed.addressOf_gives h
    have ih := he.scoped hs
    exact ih
  | .dereference he h, hs =>
    obtain ⟨hq, pointed, operand', r, -, hc, rfl, -⟩ := Typed.dereference_gives h
    have ih := he.scoped hs
    rw [hq]
    rcases hc with ⟨rfl, -⟩ | hc
    · exact ih
    · exact hc.scoped ih
  | .binary hl hr h, hs =>
    obtain ⟨hq, o, -, t, u, left', right', r, -, -, -, hcl, hcr, -, rfl⟩ := Typed.binary_gives h
    rw [hq]
    exact ⟨_, hcl.scoped (hl.scoped hs), hcr.scoped (hr.scoped hs)⟩
  | .logical hl hl' hr hr', hs =>
    exact ⟨_, Typed.scoped_of_meet hl' (hl.scoped hs), Typed.scoped_of_meet hr' (hr.scoped hs)⟩
  | .assign hl _ _ hr hr', hs => exact ⟨_, hl.scoped hs, Typed.scoped_of_meet hr' (hr.scoped hs)⟩
  | .call _ hes h, hs =>
    obtain ⟨hq, id, -, c, es', hc, hp, rfl⟩ := Typed.call_gives h
    rw [hq]
    exact ⟨hs.callee hc, hp.scoped (hes.scoped hs)⟩
  | .conditional hc hc' ht, hs =>
    exact ⟨_, Typed.scoped_of_meet hc' (hc.scoped hs), ht.scoped hs⟩
  | .choice hc hc' ht ht' hd he he' _, hs =>
    exact ⟨_, _, Typed.scoped_of_meet hc' (hc.scoped hs),
      Typed.scoped_of_decay hd (Typed.scoped_of_meet ht' (ht.scoped hs)),
      Typed.scoped_of_meet he' (he.scoped hs)⟩
  | .block h, hs => exact h.scoped hs
  | .cast _ he hc hq, hs =>
    rw [hq]
    exact hc.scoped (he.scoped hs)

theorem Expr.YieldsAll.scoped {s : Scope} {w : Weight} {es : List Expr} {p q : Progress}
    {as : List Typed} {V : List Nat} (h : Expr.YieldsAll s w es p as q) (hs : s.Within F V) :
    Typed.ScopedAll F V p.slots q.slots as := by
  match h, hs with
  | .nil, _ => exact Eq.refl p.slots
  | .cons h rest, hs => exact ⟨_, h.scoped hs, rest.scoped hs⟩

theorem Block.Yields.scoped {s : Scope} {w : Weight} {x : Expected} {b : Block} {p q : Progress}
    {e : Typed} {V : List Nat} (h : Block.Yields s w x b p e q) (hs : s.Within F V) :
    e.Scoped F V p.slots q.slots := by
  match h, hs with
  | .mk h, hs =>
    obtain ⟨m, hts, hr⟩ := h.scoped hs.push
    exact Typed.block_scoped hts hr

theorem Stmt.YieldsAll.scoped {s : Scope} {w : Weight} {x : Expected} {ss : List Stmt}
    {p q : Progress} {ts : List TypedStmt} {r : Option Typed} {V : List Nat}
    (h : Stmt.YieldsAll s w x ss p ts r q) (hs : s.Within F V) :
    ∃ m, TypedStmt.ScopedAll F V p.slots m ts ∧
      Typed.ScopedEnd F (TypedStmt.extendAll V ts) m q.slots r := by
  match h, hs with
  | .nil, _ => exact ⟨p.slots, rfl, rfl⟩
  | .last _ he hm, hs => exact ⟨p.slots, rfl, Typed.scoped_of_meet hm (he.scoped hs)⟩
  | .cons _ h rest, hs =>
    obtain ⟨first, hs'⟩ := h.scoped hs
    obtain ⟨m, hts, hr⟩ := rest.scoped hs'
    exact ⟨m, ⟨_, first, hts⟩, hr⟩

/-- A statement uses the slots it may, and its definitions are there afterwards. -/
theorem Stmt.Yields.scoped {s s' : Scope} {st : Stmt} {p q : Progress} {t : TypedStmt}
    {V : List Nat} (h : Stmt.Yields s st p t s' q) (hs : s.Within F V) :
    t.Scoped F V p.slots q.slots ∧ s'.Within F (t.extend V) := by
  match h, hs with
  | .expr h, hs => exact ⟨h.scoped hs, hs⟩
  | .declare _ _ ha, hs => exact ⟨⟨rfl, rfl⟩, hs.define ha⟩
  | .define _ he hm hval _ ha, hs =>
    have value := Typed.scoped_of_meet hval (Typed.scoped_of_meet hm (he.scoped hs))
    exact ⟨⟨value, rfl⟩, hs.define ha⟩
  | .infer he hval _ ha, hs =>
    exact ⟨⟨Typed.scoped_of_meet hval (he.scoped hs), rfl⟩, hs.define ha⟩
  | .leave _ _, hs => exact ⟨Eq.refl p.slots, hs⟩
  | .ret _ he hm _, hs =>
    have value := Typed.scoped_of_meet hm (he.scoped hs)
    exact ⟨value, hs⟩
  | .loop hc hm hb, hs =>
    exact ⟨⟨_, Typed.scoped_of_meet hm (hc.scoped hs), hb.scoped hs⟩, hs⟩

end

/-! ### Functions -/

/-- The function is one of `F`; its parameters come first, and its body uses them and what it
defines. -/
structure Function.Scoped (F : Callee → Prop) (f : Function) : Prop where
  callee : F f.callee
  arguments : f.arguments.map (·.slot) = List.range f.arguments.length
  body : ∃ b, f.body.Scoped F (List.range f.arguments.length) f.arguments.length b

namespace Module

/-- Parameters have the first slots, in order. -/
theorem addParameters_scoped :
    ∀ {ps : List (Parameter × Ty)} {scope scope' : Scope} {arguments : List Argument}
      {p q : Progress}, scope.Within F (List.range p.slots) →
      (addParameters scope ps).Gives p (arguments, scope') q →
      arguments.map (·.slot) = List.range' p.slots arguments.length ∧
        q.slots = p.slots + arguments.length ∧ scope'.Within F (List.range q.slots)
  | [], scope, scope', arguments, p, q, hs, h => by
    obtain ⟨he, rfl⟩ := Check.gives_pure.mp h
    cases he
    exact ⟨rfl, rfl, hs⟩
  | (x, t) :: rest, scope, scope', arguments, p, q, hs, h => by
    obtain ⟨inside, scope₁, arguments', -, ha, hrest, rfl⟩ := addParameters_cons_gives h
    have hs₁ : scope₁.Within F (List.range (p.slots + 1)) := by
      refine (hs.define ha).mono fun k hk => ?_
      rw [List.range_succ, List.mem_append, List.mem_singleton]
      exact (List.mem_cons.mp hk).symm
    obtain ⟨hmap, hq, hs'⟩ := addParameters_scoped (p := ⟨p.spent, p.slots + 1⟩) hs₁ hrest
    refine ⟨?_, ?_, hs'⟩
    · rw [List.map_cons, hmap]
      rfl
    · rw [hq, List.length_cons, Nat.add_assoc, Nat.add_comm 1]

/-- A body uses the parameters and what it defines. -/
theorem checkFunction_scoped {scope : Scope} {callee : Callee} {decl : FunctionDecl} {body : Block}
    {f : Function} {id : Nat} {w : Weight} {q : Progress} (hs : scope.Within F [])
    (hc : scope.callee? id = some callee)
    (h : (checkFunction scope callee decl body).Gives ⟨w, 0⟩ f q) : f.Scoped F := by
  obtain ⟨scope', m₁, natural, m₂, ha, hn, hm, hcallee, -⟩ := checkFunction_gives h
  obtain ⟨hmap, hq, hs'⟩ := addParameters_scoped (p := ⟨w, 0⟩) (hs.push.setReturnType _) ha
  rw [Nat.zero_add] at hq
  refine ⟨hcallee ▸ hs.callee hc, by rw [hmap, List.range_eq_range'], q.slots, ?_⟩
  rw [← hq]
  exact Typed.scoped_of_meet hm ((Block.natural_yields body hn).scoped hs')

/-- What is known of the functions of a module that is accepted: their types fit together and they
use the storage they define. -/
theorem build_functions {limits : Limits} {name file : String} {tree : ModuleSyntax} {m : Module}
    {scope : Scope}
    (h : (build (Scope.standard limits).push name file tree).outcome = .ok (m, scope)) :
    ∀ f ∈ m.functions, f.WellTyped scope.structs ∧
      f.Scoped fun c => ∃ id, scope.callee? id = some c := by
  obtain ⟨⟨K, hK, hs, names⟩, hfs⟩ := build_native h
  intro f hf
  obtain ⟨id, callee, decl, body, q, hc, hg⟩ := hfs f hf
  exact ⟨checkFunction_wellTyped hK hs hc hg,
    checkFunction_scoped
      ⟨names.mono (fun _ _ => trivial) fun _ h => h.elim, fun hc => ⟨_, hc⟩⟩ hc hg⟩

end Module

end Gauge
