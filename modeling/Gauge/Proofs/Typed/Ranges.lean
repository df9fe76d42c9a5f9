import Gauge.Proofs.Range.Join
import Gauge.Proofs.Scope
import Gauge.Proofs.Typed.Rules
import Gauge.Proofs.Typed.Value

/-!
# Proofs — recorded ranges hold the values

Checking records a range for every expression and allows conversions by it.  The ranges are right:
as long as the content of the variables lies in the ranges recorded for them, so does every value
that a checked expression or a part of it has.

The statement is about expressions of literals, variables, operators, conversions, conditionals with
two arms and blocks of definitions that end in a value (`Expr.isPlain`), in any scope that was made
out of the outermost one (`Scope.Created`).  Ranges keep their bounds in 64-bit words, so scalar
types that are named, that variables have and that are expected are of at most 64 bits.

Main statement: `Expr.check_inRange`.
-/

namespace Gauge

variable {t : Ty} {scope : Scope}

/-! ### Scopes -/

/-- A variable of at most 64 bits whose storage is among the first `n`. -/
def Variable.Below (n : Nat) (v : Variable) : Prop := v.type.Word ∧ v.slot < n

/-- The scopes that are made out of the outermost one; the storage of their variables is among the
first `n`. -/
inductive Scope.Created (limits : Limits) : Nat → Scope → Prop
  | standard : Created limits 0 (.standard limits)
  | push {n : Nat} {s : Scope} (h : Created limits n s) : Created limits n s.push
  | pop {n : Nat} {s : Scope} (h : Created limits n s) : Created limits n s.pop
  | keeping {n : Nat} {s : Scope} (h : Created limits n s) (taken : List StructRef) :
      Created limits n (s.keeping taken)
  | freshStamp {n : Nat} {s : Scope} (h : Created limits n s) : Created limits n s.freshStamp.2
  | insertType {n : Nat} {s : Scope} (h : Created limits n s) (name : String) {t : Ty}
      (ht : t.Word) : Created limits n (s.insertType name t)
  | registerType {n : Nat} {s s' : Scope} (h : Created limits n s) {name : String} {t : Ty}
      {position : Position} {id : TypeId} (ht : t.Word)
      (hr : s.registerType name t position = .ok (id, s')) :
      Created limits n s'
  | declareStruct {n : Nat} {s s' : Scope} (h : Created limits n s) {name : String}
      {position : Position}
      {r : StructRef} (hr : s.declareStruct name position = .ok (r, s')) : Created limits n s'
  | completeStruct {n : Nat} {s s' : Scope} (h : Created limits n s) {t : Ty}
      {members : List (String × Ty)} (hc : s.completeStruct t members = .ok s') :
      Created limits n s'
  | reserveFunction {n : Nat} {s s' : Scope} (h : Created limits n s) {name : String}
      {position : Position} {id : Nat} (hr : s.reserveFunction name position = .ok (id, s')) :
      Created limits n s'
  | resolveFunction {n : Nat} {s s' : Scope} (h : Created limits n s) {id : Nat}
      {position : Position} {t : Ty}
      {abi : Abi} (hr : (s.resolveFunction id t abi position).outcome = .ok s') :
      Created limits n s'
  | setReturnType {n : Nat} {s : Scope} (h : Created limits n s) (t : Ty) :
      Created limits n (s.setReturnType t)
  | addVariable {n : Nat} {s s' : Scope} (h : Created limits n s) {v : Variable}
      {position : Position}
      (ht : v.type.Word) (hn : n ≤ v.slot) (ha : s.addVariable v position = .ok s') :
      Created limits (v.slot + 1) s'

/-- Scopes made out of the outermost one name types of at most 64 bits. -/
theorem Scope.Created.toOver {limits : Limits} {n : Nat} {s : Scope} (h : s.Created limits n) :
    s.Over Ty.Word (Variable.Below n) := by
  induction h with
  | standard => exact (Over.standard limits).mono (fun _ => Builtin.word_of_mem) fun _ h => h.elim
  | push _ ih => exact ih.push
  | pop _ ih => exact ih.pop
  | keeping _ taken ih => exact ih.keeping taken
  | freshStamp _ ih => exact ih.freshStamp
  | insertType _ name ht ih => exact ih.insertType name ht
  | registerType _ ht hr ih => exact ih.registerType ht hr
  | declareStruct _ hr ih => exact ih.declareStruct (fun c hc => by cases hc) hr
  | completeStruct _ hc ih => exact ih.completeStruct hc
  | reserveFunction _ hr ih => exact ih.reserveFunction hr
  | resolveFunction _ hr ih => exact ih.resolveFunction hr
  | setReturnType _ t ih => exact ih.setReturnType t
  | addVariable _ ht hn ha ih =>
    refine (ih.mono (fun _ => id) ?_).addVariable ⟨ht, Nat.lt_succ_self _⟩ ha
    exact fun w hw => ⟨hw.1, by have := hw.2; omega⟩

/-- Every variable of the scope that has a content has one in its range and of its type. -/
def Env.Fits (env : Env) (scope : Scope) : Prop :=
  ∀ name v x, scope.lookupSymbol name = some (.variable v) → env v.slot = some x →
    v.range.Holds x ∧ v.type.Admits x

theorem Env.Fits.push {env : Env} (h : env.Fits scope) : env.Fits scope.push :=
  fun name v x hv hx => h name v x hv hx

theorem Scope.lookupSymbol_addVariable {s s' : Scope} {v : Variable} {position : Position}
    {name : String}
    {b : Binding} (ha : s.addVariable v position = .ok s') (h : s'.lookupSymbol name = some b) :
    b = .variable v ∨ s.lookupSymbol name = some b := by
  unfold Scope.addVariable at ha
  split at ha
  · cases ha
  · cases ha
    simp only [lookupSymbol, frames, bind, List.findSome?_cons, List.lookup_cons] at h ⊢
    cases hn : name == v.name with
    | true =>
      rw [hn] at h
      exact .inl (Option.some.inj h).symm
    | false =>
      rw [hn] at h
      exact .inr h

/-- A new variable gets storage that no other has. -/
theorem Env.Fits.addVariable {env : Env} {s s' : Scope} {v : Variable} {position : Position}
    {x : Int}
    (hs : s.Over Ty.Word (Variable.Below v.slot)) (h : env.Fits s)
    (ha : s.addVariable v position = .ok s') (hr : v.range.Holds x) (ht : v.type.Admits x) :
    (env.set v.slot x).Fits s' := by
  intro name w y hw hy
  rcases Scope.lookupSymbol_addVariable ha hw with he | hold
  · cases he
    simp only [Env.set, if_true, Option.some.injEq] at hy
    subst hy
    exact ⟨hr, ht⟩
  · have hlt := (hs.lookupVariable hold).2
    rw [Env.set, if_neg (by omega)] at hy
    exact h name w y hold hy

/-! ### The expressions -/

mutual

/-- Expressions of literals, variables, operators, conversions, conditionals with two arms, and
blocks of definitions that end in a value. -/
def Expr.isPlain : Expr → Bool
  | .literal _ (.number _) | .literal _ (.bool _) | .identifier _ _ => true
  | .prefixed _ .negate e | .prefixed _ .not e | .cast _ e _ => e.isPlain
  | .binary _ _ a b | .logical _ _ a b => a.isPlain && b.isPlain
  | .conditional _ c t (some e) => c.isPlain && t.isPlain && e.isPlain
  | .block b => b.isPlain
  | .literal _ .null | .prefixed _ .addressOf _ | .prefixed _ .dereference _ | .assign _ _ _
  | .call _ _ _ | .conditional _ _ _ none => false

def Block.isPlain : Block → Bool
  | .mk _ ss => Stmt.arePlain ss

def Stmt.arePlain : List Stmt → Bool
  | [.expr _ e] => e.isPlain
  | .define _ _ _ none :: ss => Stmt.arePlain ss
  | .define _ _ _ (some e) :: ss => e.isPlain && Stmt.arePlain ss
  | [] | .expr _ _ :: _ :: _ | .ret _ _ :: _ | .loop _ _ _ :: _ => false

end

/-! ### One node at a time -/

theorem Builtin.admits_truth (h : t ∈ values) (b : Bool) : t.Admits (truth b) := by
  have : ∀ t ∈ values, ∀ b : Bool, t.Admits (truth b) := by
    simp only [values, integers, unsigned, signed, List.cons_append, List.nil_append,
      List.forall_mem_cons]
    refine ⟨?_, ?_, ?_, ?_, ?_, ?_, ?_, ?_, ?_, ?_, fun _ h => by cases h⟩
    · rintro (_ | _)
      · exact ⟨_, rfl, rfl, .inl rfl⟩
      · exact ⟨_, rfl, rfl, .inr rfl⟩
    all_goals rintro (_ | _) <;> exact ⟨_, rfl, by decide, by decide⟩
  exact this t h b

theorem Builtin.admits_bool {v : Int} (h : bool.Admits v) : v = 0 ∨ v = 1 := by
  obtain ⟨c, hc, hv⟩ := h
  cases hc
  exact hv.2

theorem BinaryOp.run?_admits {op : BinaryOp} {x y v : Int} (ht : t ∈ Builtin.values)
    (h : op.run? t x y = some v) : t.Admits v := by
  cases op with
  | add | subtract | multiply => exact Ty.admits_result h
  | divide | modulo =>
    simp only [run?] at h
    split at h
    · cases h
    · exact Ty.admits_result h
  | equals | notEquals | less | lessEquals | greater | greaterEquals =>
    cases h
    exact Builtin.admits_truth ht _

theorem UnaryOp.run?_admits {op : UnaryOp} {x v : Int} (ht : t ∈ Builtin.values)
    (h : op.run? t x = some v) : t.Admits v := by
  cases op with
  | negate => exact Ty.admits_result h
  | not =>
    simp only [run?] at h
    split at h
    · cases h
      exact Builtin.admits_truth ht true
    · split at h
      · cases h
        exact Builtin.admits_truth ht false
      · cases h

namespace Typed

variable {fill : Nat → Ty → Option Int} {env : Env} {scope : Scope} {limit : Weight} {e e' : Typed}
  {p q : Progress} {span : Span} {v : Int} {r : Range}

theorem Each.root {P : Env → Typed → Prop} (h : e.Each fill P env) : P env e := by
  obtain ⟨f, n⟩ := e
  exact h.1

theorem each_plain {n : Node}
    (h : InRange fill env (plain n t r span)) (hn : n.Each fill (InRange fill) env) :
    (plain n t r span).Each fill (InRange fill) env := ⟨h, hn⟩

theorem value?_plain (n : Node) (t : Ty) (r : Range) (span : Span) :
    (plain n t r span).value? fill env = n.value? fill env t := by
  show (n.value? fill env t).bind (Step.run? []) = _
  cases n.value? fill env t <;> rfl

/-- An expression that is required to have a type has it, up to its name. -/
theorem required_shape (hs : scope.world.casts = Builtin.casts)
    (hv : t.isVoid = false) (h : (e.meet scope limit (.required t)).Gives p e' q)
    (he : InRange fill env e) (hval : e'.value? fill env = some v) : e'.type.shape? = t.shape? := by
  obtain ⟨-, ⟨rfl, hvoid⟩ | ⟨u, hu, -, hc⟩⟩ := meet_gives h
  · rw [hvoid t rfl] at hv
    cases hv
  · cases hu
    exact hc.shape hs he hval

/-- An operator of one operand keeps its value in its range. -/
theorem unary_inRange {op : UnaryOp} {operand operand' : Typed} {o : Overload}
    (hs : scope.world.casts = Builtin.casts) (ho : o ∈ Builtin.overloads)
    (hop : o.operator = .unary op) (hp : o.parameters[0]? = some t)
    (hc : Converted scope t true false operand operand')
    (hr : o.transfer.apply o.result [operand'.range] = .ok (.ok r))
    (he : InRange fill env operand) :
    InRange fill env (plain (.unary op operand') o.result r span) := by
  obtain ⟨u, hu, hps, hres, htr⟩ := Builtin.unary_overload ho hop
  have word := Builtin.word_of_mem (Builtin.mem_all_of_values hu)
  rw [hps] at hp
  cases hp
  rw [hres] at hr ⊢
  rw [htr] at hr
  intro v hv
  rw [value?_plain] at hv
  obtain ⟨x, hx, hv⟩ := Option.bind_eq_some_iff.mp hv
  obtain ⟨hxr, -⟩ := hc.inRange hs word he x hx
  exact ⟨Transfer.unary_holds word hr hxr hv, UnaryOp.run?_admits hu hv⟩

/-- An operator of two operands keeps its value in its range. -/
theorem binary_inRange {op : BinaryOp} {left left' right right' : Typed} {o : Overload} {t u : Ty}
    (hs : scope.world.casts = Builtin.casts) (ho : o ∈ Builtin.overloads)
    (hop : o.operator = .binary op) (hp : o.parameters[0]? = some t)
    (hq : o.parameters[1]? = some u)
    (hl : Converted scope t true false left left') (hr : Converted scope u true false right right')
    (hrange : o.transfer.apply o.result [left'.range, right'.range] = .ok (.ok r))
    (hleft : InRange fill env left) (hright : InRange fill env right) :
    InRange fill env (plain (.binary op left' right' t) o.result r span) := by
  obtain ⟨w, hw, hps, hres, htr⟩ := Builtin.binary_overload ho hop
  have word := Builtin.word_of_mem (Builtin.mem_all_of_values hw)
  rw [hps] at hp hq
  cases hp
  cases hq
  have mem : o.result ∈ Builtin.values := by
    rcases hres with hres | hres
    · rw [hres]
      exact hw
    · rw [hres]
      exact Builtin.bool_mem
  -- an operand has the result's type, unless the result is a boolean
  have same : ∀ {x : Int}, t.Admits x → o.result.isBool = false → o.result.Admits x := by
    intro x hx hb
    rcases hres with hres | hres
    · rw [hres]
      exact hx
    · rw [hres] at hb
      cases hb
  rw [htr] at hrange
  intro v hv
  rw [value?_plain] at hv
  obtain ⟨x, hx, hv⟩ := Option.bind_eq_some_iff.mp hv
  obtain ⟨y, hy, hv⟩ := Option.bind_eq_some_iff.mp hv
  obtain ⟨hxr, hxa⟩ := hl.inRange hs word hleft x hx
  obtain ⟨hyr, hya⟩ := hr.inRange hs word hright y hy
  refine ⟨?_, BinaryOp.run?_admits mem hv⟩
  exact Transfer.binary_holds (Builtin.word_of_mem (Builtin.mem_all_of_values mem)) hrange hxr hyr
    (same (hxa.of_shape (hl.shape hs hleft hx))) (same (hya.of_shape (hr.shape hs hright hy))) hv

/-- `&&` and `||` keep their values in their ranges. -/
theorem logical_inRange {op : LogicalOp} {left right : Typed} (hleft : InRange fill env left)
    (hright : InRange fill env right)
    (hl : ∀ v, left.value? fill env = some v → Builtin.bool.Admits v)
    (hr : ∀ v, right.value? fill env = some v → Builtin.bool.Admits v) :
    InRange fill env (logical span op left right) := by
  intro v hv
  have result : ∀ {s : Bools}, s.Holds v → (Range.bools s).Holds v ∧ Builtin.bool.Admits v := by
    intro s hs
    refine ⟨hs, ?_⟩
    rcases hs.zero_or_one with rfl | rfl
    · exact Builtin.admits_truth Builtin.bool_mem false
    · exact Builtin.admits_truth Builtin.bool_mem true
  cases op with
  | and =>
    rw [logical, value?_plain] at hv
    obtain ⟨x, hx, hv⟩ := Option.bind_eq_some_iff.mp hv
    have hxb := (hleft x hx).1.bools (Builtin.admits_bool (hl x hx))
    split at hv
    · next h0 =>
      subst h0
      cases hv
      exact result (hxb.and_false _)
    · next h0 =>
      have h1 : x = 1 := (Builtin.admits_bool (hl x hx)).resolve_left h0
      subst h1
      exact result (hxb.and_true ((hright v hv).1.bools (Builtin.admits_bool (hr v hv))))
  | or =>
    rw [logical, value?_plain] at hv
    obtain ⟨x, hx, hv⟩ := Option.bind_eq_some_iff.mp hv
    have hxb := (hleft x hx).1.bools (Builtin.admits_bool (hl x hx))
    split at hv
    · next h0 =>
      subst h0
      exact result (hxb.or_false ((hright v hv).1.bools (Builtin.admits_bool (hr v hv))))
    · next h0 =>
      have h1 : x = 1 := (Builtin.admits_bool (hl x hx)).resolve_left h0
      subst h1
      cases hv
      exact result (hxb.or_true _)

/-- A block without a last expression has no value. -/
theorem value?_block_none {ss : List TypedStmt} (h : e.node = .block ss none) :
    e.value? fill env = none := by
  obtain ⟨f, n⟩ := e
  obtain rfl : n = .block ss none := h
  rfl

theorem value?_of_diverges (h : e.diverges = true) : e.value? fill env = none := by
  obtain ⟨f, n⟩ := e
  cases n with
  | block ss r =>
    cases r with
    | none => rfl
    | some r => cases h
  | _ => cases h

/-- A conditional has the value of an arm that may be run, and keeps it in its range. -/
theorem conditional_inRange {condition thenArm elseArm : Typed}
    (hw : thenArm.type.Word) (hc : InRange fill env condition) (ht : InRange fill env thenArm)
    (he : InRange fill env elseArm)
    (ha : ∀ v, elseArm.value? fill env = some v → thenArm.type.Admits v)
    (hr : (armsRange scope condition thenArm elseArm).outcome = .ok r) :
    InRange fill env (plain (.conditional condition thenArm (some elseArm)) thenArm.type r
      span) := by
  intro v hv
  rw [value?_plain] at hv
  obtain ⟨x, hx, hv⟩ := Option.bind_eq_some_iff.mp hv
  have hxr := (hc x hx).1
  -- the value is that of the arm that is run, and has the type of the first one
  have arm : (x = 0 ∧ elseArm.value? fill env = some v) ∨
      (x ≠ 0 ∧ thenArm.value? fill env = some v) := by
    split at hv
    · next h0 => exact .inl ⟨h0, hv⟩
    · next h0 => exact .inr ⟨h0, hv⟩
  have admits : thenArm.type.Admits v := by
    rcases arm with ⟨-, hv⟩ | ⟨-, hv⟩
    · exact ha v hv
    · exact (ht v hv).2
  refine ⟨?_, admits⟩
  unfold armsRange at hr
  split at hr
  · obtain rfl := Traced.pure_ok.mp hr
    exact Structs.rangeOf_holds _ hw admits
  · split at hr
    · next hd =>
      obtain rfl := Traced.pure_ok.mp hr
      rcases arm with ⟨-, hv⟩ | ⟨-, hv⟩
      · exact (he v hv).1
      · rw [value?_of_diverges hd] at hv
        cases hv
    · split at hr
      · next hd =>
        obtain rfl := Traced.pure_ok.mp hr
        rcases arm with ⟨-, hv⟩ | ⟨-, hv⟩
        · rw [value?_of_diverges hd] at hv
          cases hv
        · exact (ht v hv).1
      · obtain ⟨b, -, hr⟩ := Traced.bind_ok.mp hr
        cases b with
        | false =>
          obtain rfl := Traced.pure_ok.mp hr
          exact Structs.rangeOf_holds _ hw admits
        | true =>
          simp only [Bool.not_true, Bool.false_eq_true, if_false] at hr
          split at hr
          · next hk =>
            obtain rfl := Traced.pure_ok.mp hr
            rcases arm with ⟨-, hv⟩ | ⟨h0, -⟩
            · exact (he v hv).1
            · exact absurd (hxr.eq_literal hk) h0
          · next k hk0 hk =>
            obtain rfl := Traced.pure_ok.mp hr
            rcases arm with ⟨h0, -⟩ | ⟨-, hv⟩
            · have := hxr.eq_literal hk
              subst this
              subst h0
              exact (hk0 rfl).elim
            · exact (ht v hv).1
          · rcases arm with ⟨-, hv⟩ | ⟨-, hv⟩
            · exact (Range.joins_of_merge hr).right.holds (he v hv).1
            · exact (Range.joins_of_merge hr).left.holds (ht v hv).1

end Typed

/-! ### Whole trees -/

theorem Ty.word_pointerTo (t : Ty) : (Ty.pointerTo t).Word := fun c hc => by cases hc

theorem Scope.Over.word_of_resolve {V : Variable → Prop} {x : TypeExpr}
    (h : scope.Over Ty.Word V) (ht : scope.resolveType x = .ok t) : t.Word :=
  h.resolveType (fun u _ => u.word_pointerTo) (fun _ hu => (Ty.word_withFlags _).mpr hu) ht

theorem Block.Yields.node_void {limit : Weight} {expected : Expected} {b : Block}
    {e : Typed} {p q : Progress} (hx : expected.wantsValue = false)
    (h : Block.Yields scope limit expected b p e q) : ∃ ss, e.node = .block ss none := by
  cases h with
  | @mk _ _ _ span _ _ ts _ _ h =>
    obtain rfl := h.result hx
    rcases Typed.block_cases scope expected span ts none with
      ⟨r, hr, -⟩ | ⟨-, t, -, -, he⟩ | ⟨-, -, he⟩
    · cases hr
    · exact ⟨ts, by rw [he]; rfl⟩
    · exact ⟨ts, by rw [he]; rfl⟩

/-- What is expected has at most 64 bits. -/
def Expected.Word (x : Expected) : Prop := ∀ t, x.type? = some t → t.Word

theorem Expected.word_anything : Expected.anything.Word := fun t ht => by cases ht

theorem Expected.word_required (h : t.Word) : (Expected.required t).Word := fun u hu => by
  cases hu
  exact h

/-- What is proved of an expression that was checked from the progress `p` to `q`. -/
structure Typed.Checked (fill : Nat → Ty → Option Int) (scope : Scope) (p q : Progress)
    (e : Typed) : Prop where
  slots : p.slots ≤ q.slots
  word : e.type.Word
  each : ∀ env, Env.Fits env scope → e.Each fill (Typed.InRange fill) env

namespace Typed.Checked

variable {fill : Nat → Ty → Option Int} {scope : Scope} {limit : Weight} {p q r : Progress}
  {e e' : Typed} {expected : Expected}

theorem converted {target : Ty} {mandatory explicit : Bool}
    (hs : scope.world.casts = Builtin.casts) (ht : target.Word) (hq : r.slots = q.slots)
    (h : e.Checked fill scope p q) (hc : Converted scope target mandatory explicit e e') :
    e'.Checked fill scope p r where
  slots := hq ▸ h.slots
  word := hc.word hs ht h.word
  each := fun env hv => hc.each hs ht (h.each env hv)

theorem meet (hs : scope.world.casts = Builtin.casts)
    (hx : expected.Word) (h : e.Checked fill scope p q)
    (hm : (e.meet scope limit expected).Gives q e' r) : e'.Checked fill scope p r := by
  obtain ⟨hq, ⟨rfl, -⟩ | ⟨t, ht, -, hc⟩⟩ := meet_gives hm
  · exact ⟨hq ▸ h.slots, h.word, h.each⟩
  · exact h.converted hs (hx t ht) hq hc

theorem decay (hs : scope.world.casts = Builtin.casts) (h : e.Checked fill scope p q)
    (hd : (e.decay scope limit).Gives q e' r) : e'.Checked fill scope p r := by
  obtain ⟨hq, ⟨rfl, -⟩ | hc⟩ := decay_gives hd
  · exact ⟨hq ▸ h.slots, h.word, h.each⟩
  · exact h.converted hs ((Ty.word_withFlags _).mpr h.word) hq hc

theorem required (hs : scope.world.casts = Builtin.casts) (ht : t.Word)
    (hv : t.isVoid = false) (h : e.Checked fill scope p q)
    (hm : (e.meet scope limit (.required t)).Gives q e' r) :
    e'.Checked fill scope p r ∧
      ∀ env v, Env.Fits env scope → e'.value? fill env = some v → e'.type.shape? = t.shape? :=
  ⟨h.meet hs (Expected.word_required ht) hm,
    fun env _ hf hval => required_shape hs hv hm (h.each env hf).root hval⟩

theorem asValue (hs : scope.world.casts = Builtin.casts) (h : e.Checked fill scope p q)
    (hm : (e.asValue scope limit).Gives q e' r) : e'.Checked fill scope p r :=
  h.meet hs (Expected.word_required ((Ty.word_withFlags _).mpr h.word)) hm

/-- An operator on an operand in range gives a value in range. -/
theorem unary {span : Span} {op : UnaryOp} {V : Variable → Prop}
    (hs : scope.Over Ty.Word V) (h : e.Checked fill scope p q)
    (hu : (Typed.unary scope limit expected span op e).Gives q e' r) :
    e'.Checked fill scope p r := by
  obtain ⟨hq, o, ho, t, operand, range, hop, hp, hc, hr, rfl⟩ := unary_gives hu
  rw [hs.overloads] at ho
  obtain ⟨u, hu, hps, hres, -⟩ := Builtin.unary_overload ho hop
  have word := Builtin.word_of_mem (Builtin.mem_all_of_values hu)
  have ht : t = u := by
    rw [hps] at hp
    exact (Option.some.inj hp).symm
  refine ⟨hq ▸ h.slots, hres ▸ word, fun env hf => each_plain ?_ ?_⟩
  · exact unary_inRange hs.casts ho hop hp hc hr (h.each env hf).root
  · exact hc.each hs.casts (ht ▸ word) (h.each env hf)

/-- Results lie in the range of the operator. -/
theorem binary {span : Span} {op : BinaryOp} {V : Variable → Prop}
    {left right : Typed} {m : Progress} (hs : scope.Over Ty.Word V)
    (hl : left.Checked fill scope p m) (hr : right.Checked fill scope m q)
    (hb : (Typed.binary scope limit expected span op left right).Gives q e' r) :
    e'.Checked fill scope p r := by
  obtain ⟨hq, o, ho, t, u, left', right', range, hop, hp, hp', hcl, hcr, hrange, rfl⟩ :=
    binary_gives hb
  rw [hs.overloads] at ho
  obtain ⟨w, hw, hps, hres, -⟩ := Builtin.binary_overload ho hop
  have word := Builtin.word_of_mem (Builtin.mem_all_of_values hw)
  have ht : t = w ∧ u = w := by
    rw [hps] at hp hp'
    exact ⟨(Option.some.inj hp).symm, (Option.some.inj hp').symm⟩
  refine ⟨hq ▸ hl.slots.trans hr.slots, ?_, fun env hf => each_plain ?_ ⟨?_, ?_⟩⟩
  · rw [type_plain]
    rcases hres with hres | hres
    · exact hres ▸ word
    · exact hres ▸ Builtin.word_bool
  · exact binary_inRange hs.casts ho hop hp hp' hcl hcr hrange (hl.each env hf).root
      (hr.each env hf).root
  · exact hcl.each hs.casts (ht.1 ▸ word) (hl.each env hf)
  · exact hcr.each hs.casts (ht.2 ▸ word) (hr.each env hf)

end Typed.Checked

theorem Scope.Over.below {n m : Nat} (h : scope.Over Ty.Word (Variable.Below n))
    (hn : n ≤ m) : scope.Over Ty.Word (Variable.Below m) :=
  h.mono (fun _ ht => ht) fun _ hv => ⟨hv.1, Nat.lt_of_lt_of_le hv.2 hn⟩

/-- What is proved of the statements of a block and its value. -/
structure TypedStmt.CheckedAll (fill : Nat → Ty → Option Int) (scope : Scope) (p q : Progress)
    (ts : List TypedStmt) (r : Option Typed) : Prop where
  slots : p.slots ≤ q.slots
  word : ∀ e, r = some e → e.type.Word
  statements : ∀ env, Env.Fits env scope → TypedStmt.EachAll fill (Typed.InRange fill) env ts
  result : ∀ e, r = some e → ∀ env env', Env.Fits env scope →
    TypedStmt.envAfter? fill env ts = some env' → e.Each fill (Typed.InRange fill) env'

section Trees

variable {fill : Nat → Ty → Option Int} {scope scope' : Scope} {limit : Weight}
  {expected : Expected} {p q m : Progress} {e : Typed} {span : Span} {name : String}

/-- A literal lies in its range. -/
theorem Literal.typed_checked {l : Literal} (h : (l.typed scope span).Gives p e q) :
    e.Checked fill scope p q := by
  obtain ⟨rfl, ⟨n, r, hr, rfl⟩ | ⟨b, rfl⟩ | ⟨r, rfl⟩⟩ := Literal.typed_gives h
  · have word := Builtin.word_of_mem (Builtin.smallestUnsigned_mem_all n)
    have hb : (Builtin.smallestUnsigned n).isBool = false := by
      have : ∀ t ∈ Builtin.unsigned, t.isBool = false := by decide
      exact this _ (Builtin.smallestUnsigned_mem n)
    refine ⟨le_rfl, word, fun env _ => Typed.each_plain ?_ trivial⟩
    intro v hv
    rw [Typed.value?_plain] at hv
    cases hv
    exact ⟨Range.literal_holds word hb hr, Range.literal_admits hb hr⟩
  · refine ⟨le_rfl, Builtin.word_bool, fun env _ => Typed.each_plain ?_ trivial⟩
    intro v hv
    rw [Typed.value?_plain] at hv
    cases hv
    exact ⟨Bools.holds_exactly b, Builtin.admits_truth Builtin.bool_mem b⟩
  · refine ⟨le_rfl, Ty.word_pointerTo _, fun env _ => Typed.each_plain ?_ trivial⟩
    intro v hv
    rw [Typed.value?_plain] at hv
    cases hv

theorem Typed.ofName_checked (hs : scope.Over Ty.Word (Variable.Below p.slots))
    (h : (Typed.ofName scope span name).Gives p e q) : e.Checked fill scope p q := by
  obtain ⟨rfl, v, hv, rfl⟩ := Typed.ofName_gives h
  refine ⟨le_rfl, (Ty.word_withFlags _).mpr (hs.lookupVariable hv).1, fun env hf =>
    Typed.each_plain ?_ trivial⟩
  intro x hx
  rw [Typed.value?_plain] at hx
  obtain ⟨hr, ha⟩ := hf name v x hv hx
  refine ⟨hr, ?_⟩
  rw [Typed.type_plain, Ty.Admits, Ty.asReference, Ty.scalar?_withFlags]
  exact ha

/-- The scope after a definition. -/
theorem Scope.Over.define {type : Ty} {range : Range} {slot n : Nat}
    (hs : scope.Over Ty.Word (Variable.Below slot)) (hw : type.Word) (hn : n = slot + 1)
    (ha : scope.addVariable ⟨name, type, range, slot⟩ span.start = .ok scope') :
    scope'.Over Ty.Word (Variable.Below n) :=
  (hs.below (by omega)).addVariable ⟨hw, by show slot < n; omega⟩ ha

/-- A variable that is defined by a value in range fits the scope it is added to. -/
theorem Env.Fits.define {env : Env} {type : Ty} {init : Option Typed} {slot : Nat}
    {x : Int} (hs : scope.Over Ty.Word (Variable.Below slot)) (hf : env.Fits scope)
    (hw : type.Word) (ht : type.Admits x) (hr : ∀ e, init = some e → e.range.Holds x)
    (ha : scope.addVariable ⟨name, type, TypedStmt.definedRange scope type init, slot⟩ span.start =
      .ok scope') : (env.set slot x).Fits scope' := by
  refine Env.Fits.addVariable hs hf ha ?_ ht
  unfold TypedStmt.definedRange
  split
  · split
    · exact Structs.rangeOf_holds _ hw ht
    · exact hr _ rfl
  · exact Structs.rangeOf_holds _ hw ht

/-- A block is in range where its statements and its value are. -/
theorem Typed.block_checked {ts : List TypedStmt} {r : Option Typed} (hx : expected.Word)
    (h : TypedStmt.CheckedAll fill scope.push p q ts r) :
    (Typed.block scope expected span ts r).Checked fill scope p q := by
  have none_each : ∀ (t : Ty) (range : Range) (env : Env), Env.Fits env scope →
      (Typed.plain (.block ts none) t range span).Each fill (Typed.InRange fill) env := by
    intro t range env hf
    refine Typed.each_plain ?_ (h.statements env hf.push)
    intro v hv
    cases hv
  rcases Typed.block_cases scope expected span ts r with ⟨e, rfl, he⟩ | ⟨rfl, t, ht, -, he⟩ |
    ⟨rfl, -, he⟩
  · rw [he]
    refine ⟨h.slots, h.word e rfl, fun env hf => Typed.each_plain ?_ ?_⟩
    · intro v hv
      rw [Typed.value?_plain] at hv
      obtain ⟨env', henv, hv⟩ := Option.bind_eq_some_iff.mp hv
      exact (h.result e rfl env env' hf.push henv).root v hv
    · exact ⟨h.statements env hf.push, fun env' => h.result e rfl env env' hf.push⟩
  · rw [he]
    exact ⟨h.slots, hx t ht, none_each _ _⟩
  · rw [he]
    exact ⟨h.slots, Builtin.word_void, none_each _ _⟩

/-- A definition before statements that are in range. -/
theorem TypedStmt.CheckedAll.define {type : Ty} {value : Typed}
    {ts : List TypedStmt} {r : Option Typed} {m₁ : Progress}
    (ih : TypedStmt.CheckedAll fill scope' m₁ q ts r)
    (hs : scope.Over Ty.Word (Variable.Below m.slots)) (hw : type.Word)
    (hc : value.Checked fill scope p.fresh m)
    (ht : ∀ env v, Env.Fits env scope → value.value? fill env = some v → type.Admits v)
    (hm : m₁.slots = m.slots + 1)
    (ha : scope.addVariable ⟨name, type, TypedStmt.definedRange scope type (some value), m.slots⟩
      span.start = .ok scope') :
    TypedStmt.CheckedAll fill scope p q (.define m.slots name type (some value) :: ts) r := by
  have fits : ∀ env v, Env.Fits env scope → value.value? fill env = some v →
      Env.Fits (env.set m.slots v) scope' := by
    intro env v hf hv
    refine hf.define hs hw (ht env v hf hv) ?_ ha
    intro e he
    cases he
    exact ((hc.each env hf).root v hv).1
  have hslots : p.slots ≤ m.slots := hc.slots
  refine ⟨by have := ih.slots; omega, ih.word, ?_, ?_⟩
  · intro env hf
    exact ⟨hc.each env hf, fun v hv => ih.statements _ (fits env v hf hv)⟩
  · intro e he env env' hf henv
    obtain ⟨v, hv, henv⟩ := Option.bind_eq_some_iff.mp henv
    exact ih.result e he _ env' (fits env v hf hv) henv

end Trees

section Rules

variable {fill : Nat → Ty → Option Int}

mutual

/-- By induction on the rules: each node is in range if its parts are. -/
theorem Expr.Yields.checked (hfill : ∀ slot t v, fill slot t = some v → t.Admits v) {s : Scope}
    {w : Weight} {x : Expected} {e : Expr} {p q : Progress} {b : Typed}
    (h : Expr.Yields s w x e p b q) (hp : e.isPlain = true)
    (hs : s.Over Ty.Word (Variable.Below p.slots)) (hx : x.Word) : b.Checked fill s p q := by
  match h, hp, hs, hx with
  | .literal h, _, _, _ => exact Literal.typed_checked h
  | .identifier h, _, hs, _ => exact Typed.ofName_checked hs h
  | .unary (o := o) he h, hp, hs, _ =>
    exact (he.checked hfill (by cases o <;> exact hp) hs Expected.word_anything).unary hs h
  | .addressOf _ _, hp, _, _ | .dereference _ _, hp, _, _ | .assign _ _ _ _ _, hp, _, _
  | .call _ _ _, hp, _, _ | .conditional _ _ _, hp, _, _ => cases hp
  | .binary hl hr h, hp, hs, _ =>
    obtain ⟨ha, hb⟩ := Bool.and_eq_true_iff.mp hp
    have cl := hl.checked hfill ha hs Expected.word_anything
    have cr := hr.checked hfill hb (hs.below cl.slots) Expected.word_anything
    exact cl.binary hs cr h
  | .logical hl hl' hr hr', hp, hs, _ =>
    obtain ⟨ha, hb⟩ := Bool.and_eq_true_iff.mp hp
    have hx := Expected.word_required Builtin.word_bool
    obtain ⟨cl, al⟩ := (hl.checked hfill ha hs hx).required hs.casts Builtin.word_bool rfl hl'
    obtain ⟨cr, ar⟩ := (hr.checked hfill hb (hs.below cl.slots) hx).required hs.casts
      Builtin.word_bool rfl hr'
    refine ⟨cl.slots.trans cr.slots, Builtin.word_bool, fun env hf => Typed.each_plain ?_
      ⟨cl.each env hf, cr.each env hf⟩⟩
    have il := (cl.each env hf).root
    have ir := (cr.each env hf).root
    exact Typed.logical_inRange il ir (fun v hv => (il v hv).2.of_shape (al env v hf hv))
      (fun v hv => (ir v hv).2.of_shape (ar env v hf hv))
  | .choice (u := u) h₁ h₂ h₃ h₄ h₅ h₆ h₇ hrange, hp, hs, hx =>
    obtain ⟨hct, he⟩ := Bool.and_eq_true_iff.mp hp
    obtain ⟨hc, ht⟩ := Bool.and_eq_true_iff.mp hct
    have bool := Expected.word_required Builtin.word_bool
    have cc := (h₁.checked hfill hc hs bool).meet hs.casts bool h₂
    have ct := ((h₃.checked hfill ht (hs.below cc.slots) hx).meet hs.casts hx h₄).decay hs.casts h₅
    have hx' := Expected.word_required ct.word
    have ce := h₆.checked hfill he (hs.below (cc.slots.trans ct.slots)) hx'
    have ce' := ce.meet hs.casts hx' h₇
    refine ⟨(cc.slots.trans ct.slots).trans ce'.slots, ct.word, fun env hf => Typed.each_plain ?_
      ⟨cc.each env hf, ct.each env hf, ce'.each env hf⟩⟩
    refine Typed.conditional_inRange ct.word (cc.each env hf).root (ct.each env hf).root
      (ce'.each env hf).root ?_ hrange
    intro v hv
    cases hvoid : u.type.isVoid with
    | false =>
      exact ((ce'.each env hf).root v hv).2.of_shape
        (Typed.required_shape hs.casts hvoid h₇ (ce.each env hf).root hv)
    | true =>
      -- the other arm is then checked for no value either
      obtain ⟨ss, hn⟩ := h₆.node_void (by simp [Expected.wantsValue, Expected.type?, hvoid])
      obtain ⟨-, ⟨rfl, -⟩ | ⟨u, hu, hu', -⟩⟩ := Typed.meet_gives h₇
      · rw [Typed.value?_block_none hn] at hv
        cases hv
      · cases hu
        rw [hvoid] at hu'
        cases hu'
  | .block h, hp, hs, hx => exact h.checked hfill hp hs hx
  | .cast ht he hc hq, hp, hs, _ =>
    have c := (he.checked hfill hp hs Expected.word_anything).converted hs.casts
      (hs.word_of_resolve ht) hq hc
    refine ⟨c.slots, c.word, fun env hf => Typed.each_plain ?_ (c.each env hf)⟩
    intro v hv
    rw [Typed.value?_plain] at hv
    exact (c.each env hf).root v hv

theorem Block.Yields.checked (hfill : ∀ slot t v, fill slot t = some v → t.Admits v) {s : Scope}
    {w : Weight} {x : Expected} {b : Block} {p q : Progress} {e : Typed}
    (h : Block.Yields s w x b p e q) (hp : b.isPlain = true)
    (hs : s.Over Ty.Word (Variable.Below p.slots)) (hx : x.Word) : e.Checked fill s p q := by
  match h, hp, hs, hx with
  | .mk h, hp, hs, hx => exact Typed.block_checked hx (h.checked hfill hp hs.push hx)

/-- The statements of a block keep their variables in their ranges. -/
theorem Stmt.YieldsAll.checked (hfill : ∀ slot t v, fill slot t = some v → t.Admits v) {s : Scope}
    {w : Weight} {x : Expected} {ss : List Stmt} {p q : Progress} {ts : List TypedStmt}
    {r : Option Typed} (h : Stmt.YieldsAll s w x ss p ts r q) (hp : Stmt.arePlain ss = true)
    (hs : s.Over Ty.Word (Variable.Below p.slots)) (hx : x.Word) :
    TypedStmt.CheckedAll fill s p q ts r := by
  match h, hp, hs, hx with
  | .nil, hp, _, _ => cases hp
  | .last _ he hm, hp, hs, hx =>
    have c := (he.checked hfill hp hs hx).meet hs.casts hx hm
    refine ⟨c.slots, ?_, fun _ _ => trivial, ?_⟩
    · rintro _ ⟨⟩
      exact c.word
    · rintro _ ⟨⟩ env env' hf henv
      cases henv
      exact c.each env hf
  | .cons _ h rest, hp, hs, hx =>
    refine h.checkedAll hfill hp hs (fun hp hs => rest.checked hfill hp hs hx) ?_
    rintro rfl
    cases rest
    exact ⟨rfl, rfl, rfl⟩

/-- A statement before others that are in range.  An expression is the last one. -/
theorem Stmt.Yields.checkedAll (hfill : ∀ slot t v, fill slot t = some v → t.Admits v)
    {s s' : Scope} {st : Stmt} {ss : List Stmt} {p m q : Progress} {t : TypedStmt}
    {ts : List TypedStmt} {r : Option Typed} (h : Stmt.Yields s st p t s' m)
    (hp : Stmt.arePlain (st :: ss) = true) (hs : s.Over Ty.Word (Variable.Below p.slots))
    (tail : Stmt.arePlain ss = true → s'.Over Ty.Word (Variable.Below m.slots) →
      TypedStmt.CheckedAll fill s' m q ts r)
    (none : ss = [] → ts = [] ∧ r = none ∧ m = q) :
      TypedStmt.CheckedAll fill s p q (t :: ts) r := by
  match h, hp, hs, tail, none with
  | .expr h, hp, hs, _, none =>
    cases ss with
    | cons _ _ => cases hp
    | nil =>
      obtain ⟨rfl, rfl, rfl⟩ := none rfl
      have c := h.checked hfill hp hs (Expected.word_required Builtin.word_void)
      exact ⟨c.slots, nofun, fun env hf => ⟨c.each env hf, trivial⟩, nofun⟩
  | .declare ht _ ha, hp, hs, tail, _ =>
    have hw := hs.word_of_resolve ht
    have ih := tail hp (hs.define hw rfl ha)
    refine ⟨(Nat.le_succ _).trans ih.slots, ih.word, ?_, ?_⟩
    · intro env hf v hv
      exact ih.statements _ (hf.define hs hw (hfill _ _ v hv) (fun _ he => by cases he) ha)
    · intro e he env env' hf henv
      obtain ⟨v, hv, henv⟩ := Option.bind_eq_some_iff.mp henv
      exact ih.result e he _ env'
        (hf.define hs hw (hfill _ _ v hv) (fun _ he => by cases he) ha) henv
  | .define (t := t) ht he hm hval hvoid ha, hp, hs, tail, _ =>
    obtain ⟨hpe, hps⟩ := Bool.and_eq_true_iff.mp hp
    have hw := hs.word_of_resolve ht
    have hwb : t.bare.Word := (Ty.word_withFlags _).mpr hw
    have hvb : t.bare.isVoid = false := by rw [← hvoid, Ty.isVoid_bare]
    obtain ⟨cm, am⟩ := (he.checked hfill hpe hs (Expected.word_required hwb)).required hs.casts hwb
      hvb hm
    have cv := cm.asValue hs.casts hval
    have ih := tail hps ((hs.below cv.slots).define hw rfl ha)
    refine ih.define (hs.below cv.slots) hw cv ?_ rfl ha
    intro env v hf hv
    -- `asValue` only loads, so the value still has the declared type
    have iv := ((cv.each env hf).root v hv).2
    obtain ⟨-, ⟨rfl, -⟩ | ⟨u, hu, -, hconv⟩⟩ := Typed.meet_gives hval
    · exact Ty.admits_bare.mp (iv.of_shape (am env v hf hv))
    · cases hu
      obtain ⟨w, hw⟩ := hconv.value_before hv
      have im := iv.of_shape (hconv.shape hs.casts (cm.each env hf).root hv)
      exact Ty.admits_bare.mp ((Ty.admits_bare.mp im).of_shape (am env w hf hw))
  | .infer he hval _ ha, hp, hs, tail, _ =>
    obtain ⟨hpe, hps⟩ := Bool.and_eq_true_iff.mp hp
    have cv := (he.checked hfill hpe hs Expected.word_anything).asValue hs.casts hval
    have ih := tail hps ((hs.below cv.slots).define cv.word rfl ha)
    refine ih.define (hs.below cv.slots) cv.word cv ?_ rfl ha
    exact fun env v hf hv => ((cv.each env hf).root v hv).2
  | .leave _ _, hp, _, _, _ | .ret _ _ _ _, hp, _, _, _ | .loop _ _ _, hp, _, _, _ => cases hp

end

end Rules

/-- **Recorded ranges hold the values.**  If a plain expression is checked in a scope made out of
the outermost one, for whatever is expected of it, then in every environment that fits the scope its
value and the values of all its parts lie in the ranges recorded for them, and are values of their
types.  Variables without a first value may hold any value of their type. -/
theorem Expr.check_inRange {limits : Limits} {n : Nat} {scope : Scope} {e : Expr} {limit : Weight}
    {expected : Expected} {p q : Progress} {built : Typed} {fill : Nat → Ty → Option Int}
    {env : Env}
    (hs : scope.Created limits n) (hn : n ≤ p.slots) (he : e.isPlain = true) (hx : expected.Word)
    (h : (e.check scope limit expected).Gives p built q)
    (hfill : ∀ slot t v, fill slot t = some v → t.Admits v) (henv : env.Fits scope) :
    built.Each fill (Typed.InRange fill) env := by
  have names := hs.toOver.below hn
  obtain ⟨natural, m, hnat, hm⟩ := Check.gives_bind.mp h
  exact (((e.natural_yields hnat).checked hfill he names hx).meet names.casts hx hm).each env henv

/-- A scope with a byte `x`. -/
def Scope.withByte : Scope :=
  (Scope.standard .standard).push.bind "x" (.variable ⟨"x", Builtin.u8, .unsigned 0 255, 0⟩)

/-- The block that defines `y` as `x + 10` and chooses `y` by a condition that fails. -/
def Expr.wrappingSum : Expr :=
  .block (.mk .null
    [.define .null "y" none
      (some (.binary .null .add (.identifier .null "x") (.literal .null (.number "10")))),
    .expr .null (.conditional .null (.literal .null (.bool false))
      (.mk .null [.expr .null (.literal .null (.number "3"))])
      (some (.mk .null [.expr .null (.identifier .null "y")])))])

/-- With 250 for `x` the sum wraps around to 4, which is in range like all values on the way. -/
theorem Expr.check_inRange_wrappingSum :
    ∃ built q, (Expr.wrappingSum.check Scope.withByte ⟨256, 4096⟩ .anything).Gives ⟨.zero, 1⟩
      built q ∧
      built.value? (fun _ _ => none) (fun _ => some 250) = some 4 ∧
      built.Each (fun _ _ => none) (Typed.InRange fun _ _ => none) fun _ => some 250 := by
  have run : ((Expr.wrappingSum.check Scope.withByte ⟨256, 4096⟩ .anything).run
      ⟨.zero, 1⟩).outcome.toOption.map (fun r => r.1.value? (fun _ _ => none) fun _ => some 250) =
      some (some 4) := by
    decide +kernel
  obtain ⟨built, q, gives, hv⟩ := Check.gives_of_map run
  have added : (Scope.standard .standard).push.addVariable
      ⟨"x", Builtin.u8, .unsigned 0 255, 0⟩ .null = .ok Scope.withByte := rfl
  have created : Scope.withByte.Created .standard 1 :=
    .addVariable (.push .standard) (Builtin.word_of_mem (by decide)) (Nat.zero_le 0) added
  refine ⟨built, q, gives, hv, Expr.check_inRange created (Nat.le_refl 1) rfl
    Expected.word_anything gives (fun slot t v h => ?_) ?_⟩
  · cases h
  · intro name v x hv hx
    cases hx
    rcases Scope.lookupSymbol_addVariable added hv with he | hv
    · cases he
      exact ⟨⟨by decide, by decide⟩, _, rfl, by decide, by decide⟩
    · exact ((Scope.Over.standard .standard).push.lookupVariable hv).elim

/-- The outermost scope with a type of nine bytes. -/
def Scope.withWide : Scope :=
  (Scope.standard .standard).insertType "S72" (Builtin.scalar "S72" .signedInt 9)

/-- The block that defines `x` as 5, in storage of that type, and ends in it. -/
def Expr.wideVariable : Expr :=
  .block (.mk .null
    [.define .null "x" (some (.mutable .null (.named .null "S72")))
      (some (.literal .null (.number "5"))),
    .expr .null (.identifier .null "x")])

/-- The bounds of a type of nine bytes do not fit in words: cut to eight bytes they are 0 and -1,
and a range from 0 to -1 holds nothing. -/
theorem Expr.check_outOfRange :
    ∃ built q, Expr.wideVariable.isPlain = true ∧
      (Expr.wideVariable.check Scope.withWide ⟨256, 4096⟩ .anything).Gives ⟨.zero, 0⟩ built q ∧
      built.value? (fun _ _ => none) (fun _ => none) = some 5 ∧ ¬ built.range.Holds 5 := by
  have run : ((Expr.wideVariable.check Scope.withWide ⟨256, 4096⟩ .anything).run
      ⟨.zero, 0⟩).outcome.toOption.map
        (fun r => (r.1.value? (fun _ _ => none) fun _ => none, r.1.range)) =
      some (some 5, .signed 0 (-1)) := by
    decide +kernel
  obtain ⟨built, q, gives, h⟩ := Check.gives_of_map run
  obtain ⟨hv, hr⟩ := Prod.mk.inj h
  refine ⟨built, q, rfl, gives, hv, ?_⟩
  rw [hr]
  exact fun h => absurd h.2 (by decide)

end Gauge
