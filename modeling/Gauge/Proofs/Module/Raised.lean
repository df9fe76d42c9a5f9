import Gauge.Compile
import Gauge.Proofs.Module.Laid
import Gauge.Proofs.Typed.Budget

/-!
# Proofs — programs under a higher limit

The limit on the conversions of an expression is read where statements and bodies are checked, and
nowhere else.  So every pass over a module gives the same in a scope with a higher limit
(`Scope.raised`), and a program that is accepted keeps its listing.  Below that, the limit is exact:
whether an expression is accepted is decided by the weight of its conversions alone
(`expressionLimit_exact`).
-/

namespace Gauge

section Except

variable {ε α α' β β' : Type}

/-- Steps whose results are images of each other give images of each other. -/
theorem map_bind_eq {x : Except ε α} {x' : Except ε α'} {f : α → α'} {k : α → Except ε β}
    {k' : α' → Except ε β'} {g : β → β'} (hx : x' = x.map f) (hk : ∀ a, k' (f a) = (k a).map g) :
    (x' >>= k') = (x >>= k).map g := by
  rw [hx]
  cases x with
  | error e => rfl
  | ok a => exact hk a

theorem foldlM_map {f : β → α → Except ε β} {f' : β' → α → Except ε β'} {g : β → β'}
    (h : ∀ b a, f' (g b) a = (f b a).map g) : ∀ (l : List α) (b : β),
      l.foldlM f' (g b) = (l.foldlM f b).map g
  | [], _ => rfl
  | a :: l, b => by
    rw [List.foldlM_cons, List.foldlM_cons]
    exact map_bind_eq (h b a) fun b' => foldlM_map h l b'

end Except

/-! ### Names, structs and functions -/

namespace Scope

variable {s : Scope} {w : Weight}

theorem registerType_raised (name : String) (t : Ty) (position : Position) :
    (s.raised w).registerType name t position =
      (s.registerType name t position).map (Prod.map id (raised · w)) := by
  unfold registerType
  rw [show (s.raised w).frame = s.frame from rfl]
  split <;> rfl

theorem declareStruct_raised (name : String) (position : Position) :
    (s.raised w).declareStruct name position =
      (s.declareStruct name position).map (Prod.map id (raised · w)) :=
  map_bind_eq (registerType_raised (s := s.withStructs (s.structs.declare name).2) name _ position)
    fun _ => rfl

theorem reserveFunction_raised (name : String) (position : Position) :
    (s.raised w).reserveFunction name position =
      (s.reserveFunction name position).map (Prod.map id (raised · w)) := by
  unfold reserveFunction
  rw [show (s.raised w).frame = s.frame from rfl]
  dsimp only
  split <;> rfl

theorem anyTakes_raised (id : Nat) (ps : List Ty) : ∀ ids : List Nat,
    (s.raised w).anyTakes id ps ids = s.anyTakes id ps ids
  | [] => rfl
  | other :: ids => by
    rw [anyTakes, anyTakes, anyTakes_raised id ps ids]
    rfl

/-- Functions are resolved in the same way. -/
theorem resolveFunction_raised (id : Nat) (t : Ty) (abi : Abi) (position : Position) :
    ((s.raised w).resolveFunction id t abi position).outcome =
      (s.resolveFunction id t abi position).outcome.map (raised · w) := by
  have taken : ∀ name ps, (s.raised w).isTaken id name ps = s.isTaken id name ps := by
    intro name ps
    unfold isTaken
    simp only [anyTakes_raised]
    rfl
  unfold resolveFunction
  dsimp only
  rw [show (s.raised w).functionName id = s.functionName id from rfl,
    show (s.raised w).callee? id = s.callee? id from rfl]
  split
  · rfl
  · cases t with
    | function flags stamp n r ps =>
      dsimp only
      rw [taken]
      refine Traced.map_bind_congr rfl fun found => ?_
      cases found <;> rfl
    | _ => rfl

end Scope

namespace Module

variable {s : Scope} {w : Weight}

theorem reserve_raised : ∀ (items : List Item) (s : Scope),
    reserve (s.raised w) items = (reserve s items).map (Prod.map id (Scope.raised · w))
  | [], s => rfl
  | .struct decl :: items, s => by
    rw [reserve, reserve]
    exact map_bind_eq (Scope.declareStruct_raised decl.name decl.span.start) fun r =>
      map_bind_eq (reserve_raised items r.2) fun _ => rfl
  | .function decl :: items, s => by
    rw [reserve, reserve]
    exact map_bind_eq (Scope.reserveFunction_raised decl.name decl.span.start) fun r =>
      map_bind_eq (reserve_raised items r.2) fun _ => rfl

/-- By induction on the depth: a struct is laid out after those it holds, member by member. -/
theorem completeStruct_raised (pending : List PendingStruct) : ∀ (n : Nat) (within : List String)
    (name : String) (s : Scope), completeStruct pending n within name (s.raised w) =
      (completeStruct pending n within name s).map (Scope.raised · w)
  | 0, _, _, s => rfl
  | n + 1, within, name, s => by
    have held : ∀ (x : TypeExpr) (s : Scope), layHeld pending n (name :: within) x (s.raised w) =
        (layHeld pending n (name :: within) x s).map (Scope.raised · w) := by
      intro x s
      unfold layHeld
      cases x.byValueName? with
      | none => rfl
      | some inner => exact completeStruct_raised pending n (name :: within) inner s
    have member : ∀ (x : List (String × Ty) × Scope) (m : String × TypeExpr),
        layMember pending n (name :: within) (Prod.map id (Scope.raised · w) x) m =
          (layMember pending n (name :: within) x m).map (Prod.map id (Scope.raised · w)) := by
      intro x m
      refine map_bind_eq (held m.2 x.2) fun s' => map_bind_eq (f := id) ?_ fun _ => rfl
      rw [Scope.resolveType_raised]
      cases Failure.ofError (s'.resolveType m.2) <;> rfl
    rw [completeStruct_succ, completeStruct_succ]
    cases pending.find? (·.decl.name = name) with
    | none => rfl
    | some p =>
      dsimp only
      rw [show (s.raised w).structs = s.structs from rfl]
      split
      · rfl
      · split
        · rfl
        · refine map_bind_eq (foldlM_map member p.decl.members ([], s)) fun r => ?_
          show Failure.ofFault ((r.2.structs.complete p.ref r.1).map (r.2.raised w).withStructs) =
            (Failure.ofFault ((r.2.structs.complete p.ref r.1).map r.2.withStructs)).map _
          cases r.2.structs.complete p.ref r.1 <;> rfl

theorem completeStructs_raised (pending : List PendingStruct) (s : Scope) :
    completeStructs pending (s.raised w) = (completeStructs pending s).map (Scope.raised · w) := by
  unfold completeStructs
  refine foldlM_map (g := (Scope.raised · w)) (fun s p => ?_) pending s
  exact completeStruct_raised pending (pending.length + 1) [] p.decl.name s

theorem signature_raised (decl : FunctionDecl) :
    signature (s.raised w) decl = signature s decl := by
  unfold signature
  rw [Scope.resolveType_raised]

theorem resolveFunctions_raised : ∀ (pending : List PendingFunction) (s : Scope),
    (resolveFunctions pending (s.raised w)).outcome =
      (resolveFunctions pending s).outcome.map (Scope.raised · w)
  | [], s => rfl
  | p :: ps, s => by
    rw [resolveFunctions, resolveFunctions, List.foldlM_cons, List.foldlM_cons]
    refine Traced.map_bind ?_ fun s' _ => resolveFunctions_raised ps s'
    rw [signature_raised]
    refine Traced.map_bind_congr rfl fun signature => ?_
    refine Traced.map_bind_congr rfl fun abi => ?_
    exact Scope.resolveFunction_raised p.id _ abi p.decl.span.start

/-! ### Bodies -/

theorem addParameters_maps : ∀ (ps : List (Parameter × Ty)) (s : Scope),
    (addParameters s ps).Maps (addParameters (s.raised w) ps) (Prod.map id (Scope.raised · w))
  | [], s => Check.sim_pure rfl
  | (p, t) :: ps, s => by
    rw [addParameters, addParameters, Scope.resolveType_raised]
    refine (Check.maps_self _).bind fun inside => (Check.maps_self _).bind fun slot => ?_
    refine (Check.maps_ofError (s.addVariable_raised w _ _)).bind fun s' => ?_
    exact (addParameters_maps ps s').bind fun _ => Check.sim_pure rfl

theorem addParameters_keeps : ∀ {ps : List (Parameter × Ty)} {s s' : Scope}
    {arguments : List Argument} {p q : Progress}, (addParameters s ps).Gives p (arguments, s') q →
    s'.world = s.world ∧ q.spent = p.spent
  | [], s, s', arguments, p, q, h => by
    obtain ⟨he, rfl⟩ := Check.gives_pure.mp h
    cases he
    exact ⟨rfl, rfl⟩
  | (x, t) :: rest, s, s', arguments, p, q, h => by
    obtain ⟨_, s₁, _, -, ha, hrest, -⟩ := addParameters_cons_gives h
    obtain ⟨world, spent⟩ := addParameters_keeps hrest
    exact ⟨world.trans (Scope.addVariable_world ha).1, spent⟩

/-- A body is within its limit when it is accepted, so it is within a higher one. -/
theorem checkFunction_raised (hw : s.expressionLimit.le w = true) {c : Callee} {decl : FunctionDecl}
    {body : Block} {f : Function} {p q : Progress} (hp : p.spent = .zero)
    (h : (checkFunction s c decl body).Gives p f q) :
    (checkFunction (s.raised w) c decl body).Gives p f q := by
  obtain ⟨⟨arguments, s'⟩, m, ha, h⟩ := Check.gives_bind.mp h
  obtain ⟨built, m', hb, h⟩ := Check.gives_bind.mp h
  obtain ⟨world, spent⟩ := addParameters_keeps ha
  have limit : s'.expressionLimit = s.expressionLimit := congrArg (·.limits.expression) world
  have metered := Block.check_metered (limit ▸ hw) body (.required c.prototype.signature.result)
  have within := metered.within hb (by rw [spent, hp]; exact Weight.zero_le _)
  rw [limit] at within
  refine Check.gives_bind.mpr ⟨_, m, (addParameters_maps _ _).gives ha, ?_⟩
  exact Check.gives_bind.mpr ⟨built, m', metered.moves hb (Weight.le_trans within hw), h⟩

/-- What passes under a limit passes under a higher one. -/
theorem checkFunctions_raised (hw : s.expressionLimit.le w = true) {ps : List PendingFunction}
    {fs : List Function} (h : (checkFunctions s ps).outcome = .ok fs) :
    (checkFunctions (s.raised w) ps).outcome = .ok fs := by
  rw [checkFunctions_outcome] at h ⊢
  obtain ⟨os, hos, rfl⟩ := map_eq_ok.mp h
  refine map_eq_ok.mpr ⟨os, ?_, rfl⟩
  refine mapM_eq_ok_iff.mpr ((mapM_eq_ok_iff.mp hos).imp fun p o ho => ?_)
  rw [← Option.map_id' (x := o)]
  refine checkPending_map rfl (fun c body f q hc hf => ?_) ho
  exact ⟨c, q, hc, checkFunction_raised hw rfl hf⟩

/-! ### The whole module -/

/-- The passes before the bodies are checked: the names of a module, and the scope that the bodies
are checked in. -/
def declared (scope : Scope) (tree : ModuleSyntax) : Except Failure (Reserved × Scope) := do
  let (reserved, scope) ← Failure.ofError (reserve scope tree.items)
  let scope ← completeStructs reserved.structs scope
  let scope ← (resolveFunctions reserved.functions scope).outcome
  return (reserved, scope)

theorem build_outcome (s : Scope) (name file : String) (tree : ModuleSyntax) :
    (build s name file tree).outcome = (declared s tree >>= fun r => do
      let functions ← (checkFunctions r.2 r.1.functions).outcome
      let declarations ← Failure.ofFault (r.1.functions.mapM fun p => r.2.callee p.id)
      return (⟨name, file, declarations, functions, r.1.structs.map (·.ref)⟩, r.2)) := by
  simp only [build, declared, Traced.outcome_bind, Traced.lift_outcome, Traced.outcome_pure,
    bind_assoc]
  rfl

theorem declared_raised (s : Scope) (w : Weight) (tree : ModuleSyntax) :
    declared (s.raised w) tree = (declared s tree).map (Prod.map id (Scope.raised · w)) := by
  have names : Failure.ofError (reserve (s.raised w) tree.items) =
      (Failure.ofError (reserve s tree.items)).map (Prod.map id (Scope.raised · w)) := by
    rw [reserve_raised]
    cases reserve s tree.items <;> rfl
  refine map_bind_eq names fun r => ?_
  refine map_bind_eq (completeStructs_raised r.1.structs r.2) fun s' => ?_
  exact map_bind_eq (resolveFunctions_raised r.1.functions s') fun _ => rfl

/-- The scope that the bodies are checked in has the limit of the first scope. -/
theorem expressionLimit_declared {r : Reserved} {t : Scope} {tree : ModuleSyntax}
    (h : declared s tree = .ok (r, t)) : t.expressionLimit = s.expressionLimit := by
  -- raised to the limit that it has, the first scope is the same, and so is the one behind the
  -- passes
  have same := declared_raised s s.expressionLimit tree
  rw [show s.raised s.expressionLimit = s from rfl, h] at same
  exact congrArg (fun r => r.2.expressionLimit) (Except.ok.inj same)

/-- A module that is accepted is accepted, as it is, under a higher limit. -/
theorem build_raised (hw : s.expressionLimit.le w = true) {name file : String} {tree : ModuleSyntax}
    {m : Module} {t : Scope} (h : (build s name file tree).outcome = .ok (m, t)) :
    (build (s.raised w) name file tree).outcome = .ok (m, t.raised w) := by
  rw [build_outcome] at h ⊢
  obtain ⟨⟨reserved, t⟩, hr, h⟩ := bind_eq_ok.mp h
  obtain ⟨functions, hf, h⟩ := bind_eq_ok.mp h
  obtain ⟨declarations, hd, h⟩ := bind_eq_ok.mp h
  cases h
  have hr' : declared (s.raised w) tree = .ok (reserved, t.raised w) := by
    rw [declared_raised, hr]
    rfl
  have hw' : t.expressionLimit.le w = true := by
    rw [expressionLimit_declared hr]
    exact hw
  refine bind_eq_ok.mpr ⟨(reserved, t.raised w), hr', ?_⟩
  refine bind_eq_ok.mpr ⟨functions, checkFunctions_raised hw' hf, ?_⟩
  exact bind_eq_ok.mpr ⟨declarations, hd, rfl⟩

end Module

/-! ### The budget -/

theorem compile_raised {limits : Limits} {w : Weight} (hw : limits.expression.le w = true)
    {file source listing : String} (h : compile limits file source = .ok listing) :
    compile { limits with expression := w } file source = .ok listing := by
  obtain ⟨⟨m, scope⟩, ha, hl⟩ := bind_eq_ok.mp h
  obtain ⟨tokens, ht, ha⟩ := bind_eq_ok.mp ha
  obtain ⟨tree, hp, hb⟩ := bind_eq_ok.mp ha
  refine bind_eq_ok.mpr ⟨(m, scope.raised w), ?_, hl⟩
  refine bind_eq_ok.mpr ⟨tokens, ht, bind_eq_ok.mpr ⟨tree, hp, ?_⟩⟩
  exact Module.build_raised (s := (Scope.standard limits).push) hw hb

/-- **The budget of an expression is exact.**  An expression is accepted under a limit exactly if it
is accepted under the largest one and what is spent in the end is within the limit; it is the same
tree then. What is spent is the weight of all conversions in the tree, except for those in
statements within it, each of which has a budget of its own.  So a program that is accepted has the
same listing under any higher limit. -/
theorem expressionLimit_exact :
    (∀ (e : Expr) (scope : Scope) (expected : Expected) (limit : Weight) (p q : Progress)
      (built : Typed), p.spent.le limit = true →
        ((e.check scope limit expected).Gives p built q ↔
          (e.check scope .largest expected).Gives p built q ∧ q.spent.le limit = true) ∧
        ((e.check scope limit expected).Gives p built q → q.spent = p.spent + built.spending)) ∧
    (∀ (st : Stmt) (scope scope' : Scope) (t : TypedStmt) (p q : Progress),
      (st.check scope).Gives p (t, scope') q →
        q.spent = p.spent ∧ t.spending.le scope.expressionLimit = true) ∧
    ∀ (limits : Limits) (w : Weight) (file source listing : String), limits.expression.le w = true →
      compile limits file source = .ok listing →
        compile { limits with expression := w } file source = .ok listing := by
  -- raised to the limit that it has, a scope is the same
  have same : ∀ scope : Scope, scope.expressionLimit.le scope.expressionLimit = true :=
    fun scope => Weight.le_refl _
  refine ⟨?_, ?_, fun limits w file source listing hw h => compile_raised hw h⟩
  · intro e scope expected limit p q built hp
    have metered := Expr.check_metered (Expr.natural_metered e expected (same scope))
    refine ⟨⟨fun h => ?_, fun h => ?_⟩, fun h => ?_⟩
    · exact ⟨metered.moves h (Weight.le_largest _), metered.within h hp⟩
    · exact metered.moves h.1 h.2
    · obtain ⟨more, spent, total⟩ := metered.spends h
      rw [spent, ← total, Weight.zero_add]
  · intro st scope scope' t p q h
    have settled := Stmt.check_settled (same scope) h
    exact ⟨settled.spent, settled.paid⟩

/-- A scope with a variable `x` of one byte. -/
def byteScope : Scope :=
  (Scope.standard .standard).bind "x" (.variable ⟨"x", Builtin.u8, .unsigned 0 255, 0⟩)

/-- `a: U64 = x`. -/
def widening : Stmt :=
  .define .null "a" (some (.named .null "U64")) (some (.identifier .null "x"))

/-- `{ a: U64 = x; x + 300 }`. -/
def widened : Expr :=
  let z : Span := .null
  let sum : Expr := .binary z .add (.identifier z "x") (.literal z (.number "300"))
  .block (.mk z [widening, .expr z sum])

/-- Where a `U64` is expected, `x` in `x + 300` is loaded and widened.  This is all that counts: it
is accepted under just this weight and not under less, although the statement before it weighs as
much again. -/
theorem expressionLimit_exact_widened :
    (∃ built q, (widened.check byteScope ⟨2, 4⟩ (.required Builtin.u64)).Gives ⟨.zero, 0⟩ built q ∧
      built.spending = ⟨2, 4⟩) ∧
    (¬ ∃ built q, (widened.check byteScope ⟨2, 3⟩ (.required Builtin.u64)).Gives ⟨.zero, 0⟩
      built q) ∧
    (∃ t s q, (widening.check byteScope).Gives ⟨⟨1, 1⟩, 0⟩ (t, s) q ∧ q.spent = ⟨1, 1⟩ ∧
      t.spending = ⟨2, 4⟩ ∧ t.spending.le byteScope.expressionLimit = true) ∧
    ∃ listing, compile ⟨⟨8, 64⟩, ⟨2, 4⟩⟩ "m.g" "def f(x: U8) -> U64 \x7b x \x7d" = .ok listing ∧
      compile ⟨⟨8, 64⟩, .largest⟩ "m.g" "def f(x: U8) -> U64 \x7b x \x7d" = .ok listing := by
  obtain ⟨exact, settled, raised⟩ := expressionLimit_exact
  have run : ((widened.check byteScope .largest (.required Builtin.u64)).run
    ⟨.zero, 0⟩).outcome.toOption.map
      (·.2.spent) = some ⟨2, 4⟩ := by
    decide +kernel
  obtain ⟨built, q, h, hq⟩ := Check.gives_of_map run
  refine ⟨⟨built, q, ?_⟩, ?_, ?_, ?_⟩
  · obtain ⟨accepted, spent⟩ :=
      exact widened byteScope (.required Builtin.u64) ⟨2, 4⟩ ⟨.zero, 0⟩ q built
      (by decide)
    have within := accepted.mpr ⟨h, by rw [hq]; decide⟩
    refine ⟨within, ?_⟩
    rw [← hq, spent within, Weight.zero_add]
  · rintro ⟨built', q', h'⟩
    obtain ⟨accepted, -⟩ :=
      exact widened byteScope (.required Builtin.u64) ⟨2, 3⟩ ⟨.zero, 0⟩ q' built'
      (by decide)
    obtain ⟨unlimited, within⟩ := accepted.mp h'
    cases Except.ok.inj (h.symm.trans unlimited)
    rw [hq] at within
    exact absurd within (by decide)
  · have run : ((widening.check byteScope).run ⟨⟨1, 1⟩, 0⟩).outcome.toOption.map (·.1.1.spending) =
        some ⟨2, 4⟩ := by
      decide +kernel
    obtain ⟨⟨t, s⟩, q, h, ht⟩ := Check.gives_of_map run
    obtain ⟨spent, paid⟩ := settled _ _ _ _ _ _ h
    exact ⟨t, s, q, h, spent, ht, paid⟩
  · have run : (compile ⟨⟨8, 64⟩, ⟨2, 4⟩⟩ "m.g" "def f(x: U8) -> U64 \x7b x \x7d").toOption.map
        (fun _ => true) = some true := by
      decide +kernel
    obtain ⟨listing, accepted, -⟩ := eq_ok_of_map run
    exact ⟨listing, accepted, raised ⟨⟨8, 64⟩, ⟨2, 4⟩⟩ .largest _ _ listing (by decide) accepted⟩

end Gauge
