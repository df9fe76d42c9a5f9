import Gauge.Proofs.Typed.WellTyped

/-!
# Proofs — the expressions of a tree

`Typed.parts` lists every expression that stands in a tree, those in the statements of its blocks
included.  What holds of a well-typed tree holds of each of them (`Typed.WellTyped.part`).
-/

namespace Gauge

mutual

/-- The expressions of a tree, with the tree itself at the head. -/
def Typed.parts : Typed → List Typed
  | .mk f n => .mk f n :: n.parts

/-- The expressions below a node. -/
def Node.parts : Node → List Typed
  | .constant _ | .variable _ _ => []
  | .unary _ e | .addressOf e | .dereference e | .cast e => e.parts
  | .binary _ a b _ | .logical _ a b | .assign a b => a.parts ++ b.parts
  | .call _ es => Typed.partsAll es
  | .conditional c t none => c.parts ++ t.parts
  | .conditional c t (some e) => c.parts ++ t.parts ++ e.parts
  | .block ss none => TypedStmt.partsAll ss
  | .block ss (some r) => TypedStmt.partsAll ss ++ r.parts

def Typed.partsAll : List Typed → List Typed
  | [] => []
  | e :: es => e.parts ++ Typed.partsAll es

/-- The expressions of a statement. -/
def TypedStmt.parts : TypedStmt → List Typed
  | .expr e => e.parts
  | .define _ _ _ none | .ret none => []
  | .define _ _ _ (some e) | .ret (some e) => e.parts
  | .loop c b => c.parts ++ b.parts

def TypedStmt.partsAll : List TypedStmt → List Typed
  | [] => []
  | st :: sts => st.parts ++ TypedStmt.partsAll sts

end

section WellTyped

variable {s : Structs} {result : Ty}

mutual

/-- By induction on the tree: every clause of `Node.WellTyped` covers the parts of its node. -/
theorem Typed.WellTyped.part : ∀ {e : Typed}, e.WellTyped s result →
    ∀ x ∈ e.parts, x.WellTyped s result
  | .mk f n, h => by
    rw [Typed.parts]
    exact List.forall_mem_cons.mpr ⟨h, Node.WellTyped.part h.2⟩

/-- The parts of a well-typed node are well typed. -/
theorem Node.WellTyped.part : ∀ {n : Node} {type : Ty}, n.WellTyped s result type →
    ∀ x ∈ n.parts, x.WellTyped s result
  | .constant _, _, _ | .variable _ _, _, _ => by
    rw [Node.parts]
    exact nofun
  | .unary _ _, _, h | .addressOf _, _, h | .dereference _, _, h | .cast _, _, h => by
    rw [Node.parts]
    exact Typed.WellTyped.part h.1
  | .binary _ _ _ _, _, h | .logical _ _ _, _, h | .assign _ _, _, h => by
    rw [Node.parts]
    exact List.forall_mem_append.mpr ⟨Typed.WellTyped.part h.1, Typed.WellTyped.part h.2.1⟩
  | .call _ es, _, h => by
    rw [Node.parts]
    exact Typed.WellTypedAll.part h.1
  | .conditional c t none, _, h => by
    rw [Node.parts]
    exact List.forall_mem_append.mpr ⟨Typed.WellTyped.part h.1, Typed.WellTyped.part h.2.1⟩
  | .conditional c t (some e), _, h => by
    rw [Node.parts]
    exact List.forall_mem_append.mpr ⟨List.forall_mem_append.mpr
      ⟨Typed.WellTyped.part h.1, Typed.WellTyped.part h.2.1⟩, Typed.WellTyped.part h.2.2.1⟩
  | .block ss none, _, h => by
    rw [Node.parts]
    exact TypedStmt.WellTypedAll.part h.1
  | .block ss (some r), _, h => by
    rw [Node.parts]
    exact List.forall_mem_append.mpr ⟨TypedStmt.WellTypedAll.part h.1, Typed.WellTyped.part h.2.1⟩

theorem Typed.WellTypedAll.part : ∀ {es : List Typed}, Typed.WellTypedAll s result es →
    ∀ x ∈ Typed.partsAll es, x.WellTyped s result
  | [], _ => nofun
  | _ :: _, h => List.forall_mem_append.mpr ⟨Typed.WellTyped.part h.1, Typed.WellTypedAll.part h.2⟩

theorem TypedStmt.WellTyped.part : ∀ {st : TypedStmt}, st.WellTyped s result →
    ∀ x ∈ st.parts, x.WellTyped s result
  | .expr _, h => Typed.WellTyped.part h
  | .define _ _ _ none, _ | .ret none, _ => nofun
  | .define _ _ _ (some _), h | .ret (some _), h => Typed.WellTyped.part h.1
  | .loop _ _, h =>
    List.forall_mem_append.mpr ⟨Typed.WellTyped.part h.1, Typed.WellTyped.part h.2.1⟩

theorem TypedStmt.WellTypedAll.part : ∀ {sts : List TypedStmt},
    TypedStmt.WellTypedAll s result sts →
    ∀ x ∈ TypedStmt.partsAll sts, x.WellTyped s result
  | [], _ => nofun
  | _ :: _, h =>
    List.forall_mem_append.mpr ⟨TypedStmt.WellTyped.part h.1, TypedStmt.WellTypedAll.part h.2⟩

end

end WellTyped

end Gauge
