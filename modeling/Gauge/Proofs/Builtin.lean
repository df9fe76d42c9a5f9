import Gauge.Proofs.Cast.Chain
import Gauge.Proofs.Range.Sound

/-!
# Proofs — the builtin types, conversions and operators

What the tables that every program starts with hold.  A builtin conversion goes from a builtin type
to an integer type or to characters and converts the integers of the range (`mem_castGroups`); an
operator takes values of one builtin type and gives that type or a boolean (`binary_overload`,
`unary_overload`).
-/

namespace Gauge

theorem Ty.scalar?_withFlags (f : Flags) (t : Ty) : (t.withFlags f).scalar? = t.scalar? := by
  cases t <;> rfl

theorem Ty.isVoid_bare (t : Ty) : t.bare.isVoid = t.isVoid := by
  rw [isVoid, isVoid, hasKind, hasKind, bare, scalar?_withFlags]

namespace Builtin

variable {t : Ty} {o : Overload} {e : Edge}

/-! ### Types -/

/-- The builtin types that have values. -/
def values : List Ty := [bool, char8] ++ integers

theorem mem_all_of_values (h : t ∈ values) : t ∈ all := .tail _ h

theorem mem_values_of_integers (h : t ∈ integers) : t ∈ values :=
  List.mem_append_right _ h

theorem mem_all_of_integers (h : t ∈ integers) : t ∈ all :=
  mem_all_of_values (mem_values_of_integers h)

theorem scalar_of_mem (h : t ∈ all) :
    ∃ c, t = .scalar .none c ∧ c.size.toNat ≤ 8 ∧ (c.kind = .signedInt → 0 < c.size.toNat) := by
  have : ∀ t ∈ all, ∃ c, t = .scalar .none c ∧ c.size.toNat ≤ 8 ∧
      (c.kind = .signedInt → 0 < c.size.toNat) := by
    simp only [all, integers, unsigned, signed, List.cons_append, List.nil_append,
      List.forall_mem_cons]
    refine ⟨?_, ?_, ?_, ?_, ?_, ?_, ?_, ?_, ?_, ?_, ?_, fun _ h => by cases h⟩ <;>
      exact ⟨_, rfl, by decide, by decide⟩
  exact this t h

theorem word_of_mem (h : t ∈ all) : t.Word := by
  obtain ⟨c, rfl, hc⟩ := scalar_of_mem h
  intro c' hc'
  cases hc'
  exact hc

theorem bool_mem : bool ∈ values := by decide

theorem void_mem : void ∈ all := by decide

theorem word_bool : bool.Word := word_of_mem (mem_all_of_values bool_mem)

theorem word_void : void.Word := word_of_mem void_mem

theorem not_void_of_values (h : t ∈ values) : t.isVoid = false := by
  have : ∀ t ∈ values, t.isVoid = false := by decide
  exact this t h

theorem bounds_of_integers (h : t ∈ integers) : ∃ low high, t.bounds? = some (low, high) := by
  have : ∀ t ∈ integers, t.bounds?.isSome = true := by decide
  obtain ⟨⟨low, high⟩, hb⟩ := Option.isSome_iff_exists.mp (this t h)
  exact ⟨low, high, hb⟩

theorem smallestUnsigned_mem (n : Nat) : smallestUnsigned n ∈ unsigned := by
  unfold smallestUnsigned
  split
  · decide
  · split
    · decide
    · split <;> decide

theorem smallestUnsigned_mem_integers (n : Nat) : smallestUnsigned n ∈ integers :=
  List.mem_append_left _ (smallestUnsigned_mem n)

theorem smallestUnsigned_mem_all (n : Nat) : smallestUnsigned n ∈ all :=
  mem_all_of_integers (smallestUnsigned_mem_integers n)

/-! ### Conversions -/

/-- The conversions that leave a byte as it is. -/
def reinterpretations : List (Ty × Ty) := [(bool, u8), (bool, s8), (u8, char8), (char8, u8)]

/-- What is common to all builtin conversions. -/
structure IsConversion (e : Edge) : Prop where
  source : e.source ∈ values
  destination : e.destination ∈ values
  bounds : ∃ low high, e.destination.bounds? = some (low, high)
  rule : e.rule = .convert
  not_decay : e.action ≠ .decay
  reinterpret : e.action = .reinterpret → (e.source, e.destination) ∈ reinterpretations

theorem bounds_char8 : ∃ low high, char8.bounds? = some (low, high) := ⟨_, _, rfl⟩

theorem isConversion_integerEdge {a b : Ty} (ha : a ∈ integers) (hb : b ∈ integers) :
    IsConversion (integerEdge a b) where
  source := mem_values_of_integers ha
  destination := mem_values_of_integers hb
  bounds := bounds_of_integers hb
  rule := rfl
  not_decay := by
    show integerAction a b ≠ .decay
    unfold integerAction
    dsimp only
    split
    · decide
    · split
      · split <;> decide
      · decide
  reinterpret := by
    show integerAction a b = .reinterpret → _
    unfold integerAction
    dsimp only
    split
    · intro h; cases h
    · split
      · split <;> intro h <;> cases h
      · intro h; cases h

theorem isConversion_boolEdges (h : e ∈ boolEdges) : IsConversion e := by
  obtain ⟨t, ht, rfl⟩ := List.mem_map.mp h
  refine ⟨bool_mem, mem_values_of_integers ht, bounds_of_integers ht, rfl, ?_, ?_⟩
  · show (if bytes bool < bytes t then CastAction.expandUnsigned else .reinterpret) ≠ .decay
    split <;> decide
  · show (if bytes bool < bytes t then CastAction.expandUnsigned else .reinterpret) = .reinterpret →
      (bool, t) ∈ reinterpretations
    have : ∀ t ∈ integers, bytes bool < bytes t ∨ (bool, t) ∈ reinterpretations := by decide
    rcases this t ht with hl | hm
    · rw [if_pos hl]
      intro h
      cases h
    · exact fun _ => hm

theorem isConversion_charEdges (ht : t ∈ integers) (h : e ∈ charEdges t) :
    IsConversion e ∧ e.source = t := by
  have : ∀ t ∈ integers, t.text = u8.text → u8 = t := by decide
  unfold charEdges at h
  split at h
  case isTrue hu =>
    obtain rfl := List.mem_singleton.mp h
    refine ⟨⟨by decide, by decide, bounds_char8, rfl, by decide, fun _ => by decide⟩, ?_⟩
    exact this t ht hu
  case isFalse => cases h

/-- A group of builtin conversions starts at one builtin type. -/
theorem mem_castGroups {g : CastGroup} (h : g ∈ castGroups) :
    g.source ∈ values ∧ ∀ e ∈ g.edges, IsConversion e ∧ e.source = g.source := by
  rcases List.mem_append.mp h with h | h
  · obtain ⟨t, ht, rfl⟩ := List.mem_map.mp h
    refine ⟨mem_values_of_integers ht, ?_⟩
    intro e he
    rcases List.mem_append.mp he with he | he
    · obtain ⟨b, hb, rfl⟩ := List.mem_map.mp he
      exact ⟨isConversion_integerEdge ht (List.mem_filter.mp hb).1, rfl⟩
    · exact isConversion_charEdges ht he
  · simp only [List.mem_cons, List.not_mem_nil, or_false] at h
    rcases h with rfl | rfl
    · refine ⟨by decide, ?_⟩
      intro e he
      refine ⟨isConversion_boolEdges he, ?_⟩
      obtain ⟨t, -, rfl⟩ := List.mem_map.mp he
      rfl
    · refine ⟨by decide, ?_⟩
      intro e he
      obtain rfl := List.mem_singleton.mp he
      exact ⟨⟨by decide, by decide, bounds_of_integers (by decide), rfl, by decide,
        fun _ => by decide⟩, rfl⟩

/-- What the conversions out of a type do to a range. -/
theorem offers_rule {s : Structs} (h : casts.Offers s t e) :
    e.rule = .preserve ∨ e.rule = .convert ∨ e.rule = .nonNull := by
  rcases h with ⟨g, hg, -, he⟩ | ⟨f, -, hf⟩ | ⟨-, rfl⟩
  · exact .inr (.inl ((mem_castGroups hg).2 e he).1.rule)
  · unfold CastFamily.edge? at hf
    split at hf
    · split at hf
      · split at hf
        · cases hf
          exact .inl rfl
        · cases hf
      · cases hf
    · split at hf
      · cases hf
        exact .inr (.inr rfl)
      · cases hf
  · exact .inl rfl

/-! ### Operators -/

/-- Every builtin operator takes values of one type, and gives that type or a boolean. -/
theorem mem_overloads (h : o ∈ overloads) :
    (∃ t ∈ values, ∃ r, (r = t ∨ r = bool) ∧ ∃ op, o = binary t r op) ∨
      ∃ t ∈ values, ∃ op : UnaryOp, o = ⟨.unary op, [t], t, op.transfer⟩ := by
  simp only [overloads, List.mem_append, List.mem_flatMap, List.mem_map, integerOverloads,
    List.mem_singleton] at h
  rcases h with (((⟨t, ht, ⟨op, -, rfl⟩ | ⟨op, -, rfl⟩⟩ | ⟨t, ht, rfl⟩) | ⟨op, -, rfl⟩) |
    ⟨op, -, rfl⟩) | rfl
  · exact .inl ⟨t, mem_values_of_integers ht, t, .inl rfl, op, rfl⟩
  · exact .inl ⟨t, mem_values_of_integers ht, bool, .inr rfl, op, rfl⟩
  · exact .inr ⟨t, mem_values_of_integers (List.mem_append_right _ ht), .negate, rfl⟩
  · exact .inl ⟨char8, by decide, bool, .inr rfl, op, rfl⟩
  · exact .inl ⟨bool, by decide, bool, .inr rfl, op, rfl⟩
  · exact .inr ⟨bool, by decide, .not, rfl⟩

theorem binary_overload {op : BinaryOp} (h : o ∈ overloads) (ho : o.operator = .binary op) :
    ∃ t ∈ values, o.parameters = [t, t] ∧ (o.result = t ∨ o.result = bool) ∧
      o.transfer = .binary op := by
  rcases mem_overloads h with ⟨t, ht, r, hr, op', rfl⟩ | ⟨t, -, op', rfl⟩
  · cases ho
    exact ⟨t, ht, rfl, hr, rfl⟩
  · cases ho

theorem unary_overload {op : UnaryOp} (h : o ∈ overloads) (ho : o.operator = .unary op) :
    ∃ t ∈ values, o.parameters = [t] ∧ o.result = t ∧ o.transfer = op.transfer := by
  rcases mem_overloads h with ⟨t, -, r, -, op', rfl⟩ | ⟨t, ht, op', rfl⟩
  · cases ho
  · cases ho
    exact ⟨t, ht, rfl, rfl, rfl⟩

end Builtin

end Gauge
