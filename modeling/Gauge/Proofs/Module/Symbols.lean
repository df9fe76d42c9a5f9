import Gauge.Proofs.Module.Resolved
import Gauge.Proofs.Ty.Letters

/-!
# Proofs — the names that functions are linked by

Functions of one name differ in their parameters, and the symbol of a function tells its name and
its parameters.  So no two functions of a module are linked by one name, unless one of them is
foreign: those are linked by their plain names, whatever their parameters are
(`Module.symbols_apart`).
-/

namespace Gauge

/-- The plain name of a foreign function is what another function is linked by. -/
def Callee.Borrows (c d : Callee) : Prop := c.prototype.abi = .c ∧ c.name = d.symbol

namespace Module

variable {limits : Limits} {tree : ModuleSyntax} {m : Module} {scope s : Scope}
  {reserved : Reserved}
  {t : Structs}

theorem Built.spelled_function (h : tree.Spelled) {p : PendingFunction}
    (hp : p ∈ pendingFunctions 0 (functionsOf tree.items)) : Spelled p.decl.name := by
  have mem := List.mem_of_getElem? (mem_pendingFunctions.mp hp)
  obtain ⟨i, hi, hd⟩ := List.mem_filterMap.mp mem
  cases i with
  | function d =>
    cases hd
    exact h _ hi
  | struct d => cases hd

theorem Built.spelled_struct (h : tree.Spelled) {r : StructRef}
    (hr : r ∈ (pendingStructs 0 (structsOf tree.items)).map (·.ref)) : Spelled r.name := by
  obtain ⟨p, hp, rfl⟩ := List.mem_map.mp hr
  obtain ⟨hd, hname⟩ := mem_pendingStructs.mp hp
  obtain ⟨i, hi, hd⟩ := List.mem_filterMap.mp (List.mem_of_getElem? hd)
  cases i with
  | function d => cases hd
  | struct d =>
    cases hd
    rw [hname]
    exact h _ hi

/-- Functions that are not foreign are linked by different names. -/
theorem Built.symbol_ne (h : Built limits tree m scope reserved s t) (hn : tree.Spelled) {i j : Nat}
    {c d : Callee} (hij : i ≠ j) (hc : m.declarations[i]? = some c)
    (hd : m.declarations[j]? = some d)
    (hca : c.prototype.abi = .native) (hda : d.prototype.abi = .native) : c.symbol ≠ d.symbol := by
  obtain ⟨p, hp, rfl, g, a, hg, -, rfl⟩ := h.declared hc
  obtain ⟨q, hq, rfl, g', a', hg', -, rfl⟩ := h.declared hd
  obtain rfl : a = .native := hca
  obtain rfl : a' = .native := hda
  have told := h.told
  have native := h.allResolved.native
  have resolved := h.allResolved
  have distinct := h.distinct
  obtain rfl := h.reserved_eq
  have parameters : ∀ {p : PendingFunction} {g : Signature},
    signature (s.withStructs t) p.decl = .ok g →
      ∀ u ∈ g.parameters, u.Native (· ∈ (pendingStructs 0 (structsOf tree.items)).map (·.ref)) := by
    intro p g hg
    rw [← resolved.signature_eq] at hg
    exact (signature_native native hg).parameters
  intro heq
  obtain ⟨hname, hps⟩ := Signature.symbol_inj distinct (fun r hr => spelled_struct hn hr)
    (spelled_function hn hp) (spelled_function hn hq) (parameters hg) (parameters hg') heq
  exact told p hp q hq hij hname g g' hg hg' hps

/-- **Only foreign functions share a symbol.**  Two functions of an accepted module are linked by
one name exactly if one of them is foreign and its plain name is what the other is linked by; so all
others have symbols of their own.  This needs names that start with no digit, as the names of every
program do. -/
theorem symbols_apart :
    (∀ {limits : Limits} {name file : String} {tree : ModuleSyntax} {m : Module} {scope : Scope},
      (build (Scope.standard limits).push name file tree).outcome = .ok (m, scope) → tree.Spelled →
      ∀ {i j : Nat} {c d : Callee}, i ≠ j → m.declarations[i]? = some c →
      m.declarations[j]? = some d →
        (c.symbol = d.symbol ↔ c.Borrows d ∨ d.Borrows c)) ∧
    ∀ {file source : String} {tokens : List Token} {tree : ModuleSyntax},
      tokenize file source = .ok tokens → parse file tokens = .ok tree → tree.Spelled := by
  constructor
  · intro limits name file tree m scope h hn i j c d hij hc hd
    obtain ⟨reserved, s, t, hb⟩ := built_of_build h
    have plain : ∀ {c : Callee}, c.prototype.abi = .c → c.symbol = c.name := by
      intro c hc
      rw [Callee.symbol, hc]
      rfl
    constructor
    · intro heq
      cases hca : c.prototype.abi with
      | c => exact .inl ⟨hca, (plain hca).symm.trans heq⟩
      | native =>
        cases hda : d.prototype.abi with
        | c => exact .inr ⟨hda, (plain hda).symm.trans heq.symm⟩
        | native => exact absurd heq (hb.symbol_ne hn hij hc hd hca hda)
    · rintro (⟨hca, hname⟩ | ⟨hda, hname⟩)
      · rw [plain hca, hname]
      · rw [plain hda, hname]
  · intro file source tokens tree ht hp
    exact spelled_of_parse ht hp

/-- The head of a function with parameters of the given types. -/
def head (name : String) (types : List TypeExpr) (body : FunctionBody) : Item :=
  .function ⟨name, types.map fun t => ⟨"a", t, .null⟩, none, body, .null⟩

/-- The symbols of a module that consists of the given items, if it is accepted. -/
def symbols? (items : List Item) : Option (List String) :=
  (build (Scope.standard .standard).push "m" "m.g" ⟨items, .null⟩).outcome.toOption.map fun r =>
    r.1.declarations.map Callee.symbol

/-- The functions `f` of `U8` and of a pointer to the struct `s`, and a foreign one of that name. -/
def overloadedTree : ModuleSyntax :=
  let z : Span := .null
  ⟨[head "f" [.named z "U8"] (.block (.mk z [])), .struct ⟨"s", [], z⟩,
    head "f" [.pointer z (.named z "s")] (.block (.mk z [])), head "f" [] (.foreign "C" z)], z⟩

/-- Overloads have symbols of their own. -/
theorem symbols_apart_overloads :
    ∃ m scope c d, (build (Scope.standard .standard).push "m" "m.g" overloadedTree).outcome =
      .ok (m, scope) ∧
      overloadedTree.Spelled ∧ m.declarations[0]? = some c ∧ m.declarations[1]? = some d ∧
      c.name = d.name ∧ c.symbol ≠ d.symbol := by
  have run : (build (Scope.standard .standard).push "m" "m.g" overloadedTree).outcome.toOption.map
      (fun r => r.1.declarations.map fun c => (c.name, c.prototype.abi)) =
        some [("f", .native), ("f", .native), ("f", .c)] := by
    decide +kernel
  have spelled : overloadedTree.Spelled := by decide
  obtain ⟨⟨m, scope⟩, accepted, hd⟩ := eq_ok_of_map run
  obtain ⟨c, cs, hm, hc, hd⟩ := List.map_eq_cons_iff.mp hd
  obtain ⟨d, ds, rfl, hd, -⟩ := List.map_eq_cons_iff.mp hd
  obtain ⟨hcn, hca⟩ := Prod.mk.inj hc
  obtain ⟨hdn, hda⟩ := Prod.mk.inj hd
  have h0 : m.declarations[0]? = some c := by rw [hm]; rfl
  have h1 : m.declarations[1]? = some d := by rw [hm]; rfl
  refine ⟨m, scope, c, d, accepted, spelled, h0, h1, hcn.trans hdn.symm, ?_⟩
  intro heq
  rcases (symbols_apart.1 accepted spelled Nat.zero_ne_one h0 h1).mp heq with ⟨h, -⟩ | ⟨h, -⟩
  · cases hca.symm.trans h
  · cases hda.symm.trans h

/-- Foreign functions of one name share a symbol, and so do a foreign function and the one whose
symbol is its name.  With names that start with a digit, which no program has, two others may do so
as well. -/
theorem symbols_shared :
    symbols? [head "f" [.named .null "U8"] (.foreign "C" .null),
      head "f" [.named .null "U16"] (.foreign "C" .null)] = some ["f", "f"] ∧
    symbols? [head "_P1fU1" [] (.foreign "C" .null),
      head "f" [.named .null "U8"] (.block (.mk .null []))] = some ["_P1fU1", "_P1fU1"] ∧
    symbols? [head "0" [(TypeExpr.pointer .null)^[10] (.named .null "U8")] (.block (.mk .null [])),
      head "PPPPPPPPPP" [.named .null "U8"] (.block (.mk .null []))] =
        some ["_P10PPPPPPPPPPU1", "_P10PPPPPPPPPPU1"] := by
  decide +kernel

end Module

end Gauge
