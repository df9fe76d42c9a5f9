import Mathlib.Order.Nat
import Gauge.Proofs.Safe
import Gauge.Syntax.Parser

/-!
# Proofs — the extents of trees

An extent is what is left of a tree when everything but the spans is forgotten.  `Extent.Covers`
says that spans nest: a part covers whole tokens, and the parts in it follow one another within its
span.

While tokens are read in the order of the text, `Cursor.Reads` collects the extents of what was
read. It has a rule for each of the ways in which spans are put together: from the first token to
the last one read, from the span of the first operand to that of the last, or as the span of the
only part.
-/

namespace Gauge

/-- A part of a tree by its span, with the parts in it in the order of the text. -/
inductive Extent where
  | node (span : Span) (parts : List Extent)
  /-- What no text can say: a variable with neither a type nor an initial value. -/
  | absent

namespace Extent

def span : Extent → Span
  | .node s _ => s
  | .absent => .null

def parts : Extent → List Extent
  | .node _ ps => ps
  | .absent => []

end Extent

/-! ### Trees -/

def TypeExpr.extent : TypeExpr → Extent
  | .named s _ => .node s []
  | .pointer s t | .mutable s t => .node s [t.extent]

mutual

def Expr.extent : Expr → Extent
  | .literal s _ | .identifier s _ => .node s []
  | .prefixed s _ e => .node s [e.extent]
  | .binary s _ a b | .logical s _ a b | .assign s a b => .node s [a.extent, b.extent]
  | .call s f es => .node s (f.extent :: Expr.extents es)
  | .conditional s c t none => .node s [c.extent, t.extent]
  | .conditional s c t (some e) => .node s [c.extent, t.extent, e.extent]
  | .block b => .node b.span [b.extent]
  | .cast s e t => .node s [e.extent, t.extent]

def Expr.extents : List Expr → List Extent
  | [] => []
  | e :: es => e.extent :: Expr.extents es

def Stmt.extent : Stmt → Extent
  | .expr s e | .define s _ none (some e) | .ret s (some e) => .node s [e.extent]
  | .define s _ (some t) none => .node s [t.extent]
  | .define s _ (some t) (some e) => .node s [t.extent, e.extent]
  | .define _ _ none none => .absent
  | .ret s none => .node s []
  | .loop s c b => .node s [c.extent, b.extent]

def Stmt.extents : List Stmt → List Extent
  | [] => []
  | s :: ss => s.extent :: Stmt.extents ss

def Block.extent : Block → Extent
  | .mk s ss => .node s (Stmt.extents ss)

end

def Parameter.extent (p : Parameter) : Extent := .node p.span [p.type.extent]

/-- What the head of a function holds: its parameters and its result. -/
def headExtents (parameters : List Parameter) (result : Option TypeExpr) : List Extent :=
  parameters.map Parameter.extent ++ result.toList.map TypeExpr.extent

/-- The convention of a function defined elsewhere stands before its head, a body behind it. -/
def FunctionDecl.extent (f : FunctionDecl) : Extent :=
  match f.body with
  | .block b => .node f.span (headExtents f.parameters f.result ++ [b.extent])
  | .foreign _ s => .node f.span (.node s [] :: headExtents f.parameters f.result)

def StructDecl.extent (s : StructDecl) : Extent := .node s.span (s.members.map (·.2.extent))

def Item.extent : Item → Extent
  | .function f => f.extent
  | .struct s => s.extent

/-- The name of a function or a struct. -/
def Item.name : Item → String
  | .function f => f.name
  | .struct s => s.name

theorem TypeExpr.span_extent (t : TypeExpr) : t.extent.span = t.span := by
  cases t <;> rfl

theorem Block.span_extent (b : Block) : b.extent.span = b.span := by
  cases b
  rfl

theorem Expr.span_extent (e : Expr) : e.extent.span = e.span := by
  cases e with
  | conditional s c t e => cases e <;> rfl
  | _ => rfl

/-! ### Places -/

mutual

/-- Every part starts at a place of which `L` holds, and is one that a text can say, or no matter.
-/
def Extent.Placed (L : Leeway) : Extent → Prop
  | .node s ps => L s.start ∧ Extent.PlacedAll L ps
  | .absent => L.untyped

def Extent.PlacedAll (L : Leeway) : List Extent → Prop
  | [] => True
  | e :: es => e.Placed L ∧ Extent.PlacedAll L es

end

mutual

theorem Extent.placed_all : ∀ e : Extent, e.Placed .all
  | .node _ ps => ⟨trivial, Extent.placedAll_all ps⟩
  | .absent => trivial

theorem Extent.placedAll_all : ∀ es : List Extent, Extent.PlacedAll .all es
  | [] => trivial
  | e :: es => ⟨e.placed_all, Extent.placedAll_all es⟩

end

variable {L : Leeway}

theorem Extent.placedAll_iff {es : List Extent} : Extent.PlacedAll L es ↔ ∀ e ∈ es, e.Placed L := by
  induction es with
  | nil => simp [Extent.PlacedAll]
  | cons e es ih => rw [Extent.PlacedAll, ih, List.forall_mem_cons]

theorem TypeExpr.placed (hL : ∀ p, L p) : ∀ x : TypeExpr, x.extent.Placed L
  | .named _ _ => ⟨hL _, trivial⟩
  | .pointer _ x | .mutable _ x => ⟨hL _, x.placed hL, trivial⟩

theorem StructDecl.placed (hL : ∀ p, L p) (d : StructDecl) : d.extent.Placed L := by
  refine ⟨hL _, Extent.placedAll_iff.mpr fun e he => ?_⟩
  obtain ⟨m, -, rfl⟩ := List.mem_map.mp he
  exact m.2.placed hL

/-- Where the parts of a function that errors are reported at start. -/
structure FunctionDecl.Placed (L : Leeway) (f : FunctionDecl) : Prop where
  start : L f.span.start
  parameters : ∀ p ∈ f.parameters, p.extent.Placed L
  result : ∀ t, f.result = some t → t.extent.Placed L
  body : ∀ b, f.body = .block b → b.extent.Placed L
  foreign : ∀ name s, f.body = .foreign name s → L s.start

/-- A function is placed where all its parts are. -/
theorem FunctionDecl.placed {f : FunctionDecl} (h : f.extent.Placed L) : f.Placed L := by
  obtain ⟨name, parameters, result, body, span⟩ := f
  cases body with
  | block b =>
    obtain ⟨start, all⟩ := h
    simp only [Extent.placedAll_iff, headExtents, List.forall_mem_append, List.forall_mem_map,
      List.forall_mem_singleton] at all
    refine ⟨start, all.1.1, fun t ht => all.1.2 t (Option.mem_toList.mpr ht), ?_, ?_⟩
    · rintro _ ⟨⟩
      exact all.2
    · rintro _ _ ⟨⟩
  | foreign convention s =>
    obtain ⟨start, first, all⟩ := h
    simp only [Extent.placedAll_iff, headExtents, List.forall_mem_append,
      List.forall_mem_map] at all
    refine ⟨start, all.1, fun t ht => all.2 t (Option.mem_toList.mpr ht), ?_, ?_⟩
    · rintro _ ⟨⟩
    · rintro _ _ ⟨⟩
      exact first.1

/-! ### Nesting -/

/-- Positions are ordered by their offsets. -/
instance : Preorder Position := .lift Position.offset

/-- The position is the start of one of the tokens. -/
def Begins (tokens : List Token) (p : Position) : Prop := ∃ t ∈ tokens, p = t.span.start

/-- The position is the end of one of the tokens. -/
def Finishes (tokens : List Token) (p : Position) : Prop := ∃ t ∈ tokens, p = t.span.stop

variable {tokens : List Token}

namespace Extent

mutual

/-- The part covers whole tokens, at least one of them, and all its parts. -/
def Covers (tokens : List Token) : Extent → Prop
  | .node s ps => Begins tokens s.start ∧ Finishes tokens s.stop ∧ s.start < s.stop ∧
      Between tokens s.start s.stop ps
  | .absent => False

/-- The parts follow one another between two positions. -/
def Between (tokens : List Token) (lo hi : Position) : List Extent → Prop
  | [] => True
  | e :: es => e.Covers tokens ∧ lo ≤ e.span.start ∧ e.span.stop ≤ hi ∧
      Between tokens e.span.stop hi es

end

variable {e : Extent} {es fs : List Extent} {lo lo' hi hi' : Position}

theorem Covers.begins (h : e.Covers tokens) : Begins tokens e.span.start := by
  cases e with
  | node s ps => exact h.1
  | absent => exact h.elim

theorem Covers.finishes (h : e.Covers tokens) : Finishes tokens e.span.stop := by
  cases e with
  | node s ps => exact h.2.1
  | absent => exact h.elim

theorem Covers.filled (h : e.Covers tokens) : e.span.start < e.span.stop := by
  cases e with
  | node s ps => exact h.2.2.1
  | absent => exact h.elim

theorem Covers.between (h : e.Covers tokens) : Between tokens e.span.start e.span.stop e.parts := by
  cases e with
  | node s ps => exact h.2.2.2
  | absent => exact h.elim

theorem Between.append (h : Between tokens lo hi es) (h' : Between tokens lo' hi' fs)
    (hlo : lo ≤ lo')
    (hgap : hi ≤ lo') (hhi : hi ≤ hi') : Between tokens lo hi' (es ++ fs) := by
  induction es generalizing lo with
  | nil =>
    cases fs with
    | nil => trivial
    | cons f fs => exact ⟨h'.1, hlo.trans h'.2.1, h'.2.2⟩
  | cons e es ih =>
    obtain ⟨covers, first, last, rest⟩ := h
    exact ⟨covers, first, last.trans hhi, ih rest (last.trans hgap)⟩

end Extent

/-! ### Reading in order -/

/-- The tokens follow one another from `lo` to `hi`, and none of them is empty. -/
def Token.Ordered (lo hi : Position) : List Token → Prop
  | [] => lo ≤ hi
  | t :: ts => lo ≤ t.span.start ∧ t.span.start < t.span.stop ∧ Token.Ordered t.span.stop hi ts

namespace Cursor

variable {c d d' : Cursor} {e f : Extent} {ps qs : List Extent}

/-- What lies ahead are tokens of the text, in its order and behind what was read. -/
structure Laid (tokens : List Token) (c : Cursor) : Prop where
  ahead : ∀ t ∈ c.ahead, t ∈ tokens
  finish : .eof c.finish ∈ tokens
  ordered : Token.Ordered c.lastEnd c.finish c.ahead
  last : 0 < c.lastEnd.offset → Finishes tokens c.lastEnd

namespace Laid

theorem current (h : c.Laid tokens) : c.current ∈ tokens := by
  unfold Cursor.current
  cases ha : c.ahead with
  | nil => exact h.finish
  | cons t ts => exact h.ahead t (by simp [ha])

theorem lastEnd_le (h : c.Laid tokens) : c.lastEnd ≤ c.position := by
  have ordered := h.ordered
  unfold Cursor.position Cursor.current
  cases ha : c.ahead with
  | nil =>
    rw [ha] at ordered
    exact ordered
  | cons t ts =>
    rw [ha] at ordered
    exact ordered.1

/-- The next token begins where the one before it has ended. -/
theorem next (h : c.Laid tokens) (hk : c.kind ≠ .eof) :
    c.next.Laid tokens ∧ c.position < c.next.lastEnd := by
  have ahead := h.ahead
  have ordered := h.ordered
  have current := h.current
  unfold kind Cursor.current at hk
  unfold Cursor.position
  unfold Cursor.current at current ⊢
  cases ha : c.ahead with
  | nil =>
    rw [ha] at hk
    exact absurd rfl hk
  | cons t ts =>
    rw [ha] at ahead ordered current
    have stop : c.next.lastEnd = t.span.stop := by
      unfold Cursor.next Cursor.lastEnd Cursor.current
      rw [ha]
      rfl
    have left : c.next.ahead = ts := by rw [Cursor.next, ha]; rfl
    refine ⟨⟨?_, h.finish, ?_, ?_⟩, stop ▸ ordered.2.1⟩
    · rw [left]
      exact fun u hu => ahead u (.tail _ hu)
    · rw [left, stop]
      exact ordered.2.2
    · rw [stop]
      exact fun _ => ⟨t, current, rfl⟩

end Laid

/-- What was read on the way from one place to another. -/
structure Passed (tokens : List Token) (c d : Cursor) (ps : List Extent) : Prop where
  laid : d.Laid tokens
  position : c.position ≤ d.position
  lastEnd : c.lastEnd ≤ d.lastEnd
  between : Extent.Between tokens c.position d.lastEnd ps

namespace Passed

/-- What was read is put together to one part. -/
theorem enclose (h : c.Passed tokens d ps) {s : Span} (hs : (Extent.node s ps).Covers tokens)
    (hlo : c.position ≤ s.start) (hhi : s.stop ≤ d.lastEnd) : c.Passed tokens d [.node s ps] :=
  ⟨h.laid, h.position, h.lastEnd, hs, hlo, hhi, trivial⟩

/-- All that was read is put together to one part. -/
theorem whole (h : c.Passed tokens d ps) (hc : c.Laid tokens) (hlt : c.position < d.lastEnd) :
    c.Passed tokens d [.node (d.spanFrom c.position) ps] :=
  h.enclose ⟨⟨c.current, hc.current, rfl⟩, h.laid.last (Nat.zero_lt_of_lt hlt), hlt, h.between⟩
    (le_refl _) (le_refl _)

end Passed

/-- From tokens in the order of the text, these parts are read. -/
def Reads (tokens : List Token) (c d : Cursor) (ps : List Extent) : Prop :=
  c.Laid tokens → c.Passed tokens d ps

namespace Reads

theorem refl : c.Reads tokens c [] := fun h => ⟨h, le_refl _, le_refl _, trivial⟩

theorem trans (h : c.Reads tokens d ps) (h' : d.Reads tokens d' qs) :
    c.Reads tokens d' (ps ++ qs) := by
  intro hc
  have first := h hc
  have second := h' first.laid
  exact ⟨second.laid, first.position.trans second.position, first.lastEnd.trans second.lastEnd,
    first.between.append second.between first.position first.laid.lastEnd_le second.lastEnd⟩

theorem token (hk : c.kind ≠ .eof) : c.Reads tokens c.next [] := by
  intro hc
  obtain ⟨laid, filled⟩ := hc.next hk
  exact ⟨laid, filled.le.trans laid.lastEnd_le, hc.lastEnd_le.trans filled.le, trivial⟩

/-- A token in front of what is read, which shows in no span. -/
theorem skip (hk : c.kind ≠ .eof) (h : c.next.Reads tokens d ps) : c.Reads tokens d ps :=
  (token hk).trans h

/-- A token behind what is read, which shows in no span. -/
theorem close (h : c.Reads tokens d ps) (hk : d.kind ≠ .eof) : c.Reads tokens d.next ps := by
  have closed := h.trans (token hk)
  rwa [List.append_nil] at closed

/-- A part from its first token to the last one read. -/
theorem lead (hk : c.kind ≠ .eof) (h : c.next.Reads tokens d ps) :
    c.Reads tokens d [.node (d.spanFrom c.position) ps] := by
  intro hc
  obtain ⟨laid, filled⟩ := hc.next hk
  exact (skip hk h hc).whole hc (filled.trans_le (h laid).lastEnd)

/-- A single token. -/
theorem leaf (hk : c.kind ≠ .eof) : c.Reads tokens c.next [.node c.current.span []] := lead hk refl

/-- A part from the current token, with which its first part starts, to the last token read. -/
theorem cover (h : c.Reads tokens d (e :: ps)) :
    c.Reads tokens d [.node (d.spanFrom c.position) (e :: ps)] := by
  intro hc
  have passed := h hc
  obtain ⟨covers, first, last, -⟩ := passed.between
  exact passed.whole hc ((first.trans_lt covers.filled).trans_le last)

/-- A part from the start of its first part to the last token read. -/
theorem extend (h : c.Reads tokens d (e :: ps)) {s : Span} (hs : s = e.span) :
    c.Reads tokens d [.node (d.spanFrom s.start) (e :: ps)] := by
  subst hs
  intro hc
  have passed := h hc
  obtain ⟨covers, first, last, rest⟩ := passed.between
  have stop := covers.filled.trans_le last
  exact passed.enclose ⟨covers.begins, passed.laid.last (Nat.zero_lt_of_lt stop), stop, covers,
    le_refl _, last, rest⟩ first (le_refl _)

/-- A part from the start of its first part to the end of its second. -/
theorem join (h : c.Reads tokens d [e, f]) {s s' : Span} (hs : s = e.span) (hs' : s' = f.span) :
    c.Reads tokens d [.node (s.upTo s') [e, f]] := by
  subst hs hs'
  intro hc
  have passed := h hc
  obtain ⟨covers, first, last, covers', gap, last', -⟩ := passed.between
  have inside := gap.trans covers'.filled.le
  exact passed.enclose ⟨covers.begins, covers'.finishes, covers.filled.trans_le inside, covers,
    le_refl _, inside, covers', gap, le_refl _, trivial⟩ first last'

/-- A part with the span of the only part it has. -/
theorem wrap (h : c.Reads tokens d [e]) {s : Span} (hs : s = e.span) :
    c.Reads tokens d [.node s [e]] := by
  subst hs
  intro hc
  have passed := h hc
  obtain ⟨covers, first, last, -⟩ := passed.between
  exact passed.enclose ⟨covers.begins, covers.finishes, covers.filled, covers, le_refl _,
    le_refl _, trivial⟩ first last

end Reads

end Cursor

end Gauge
