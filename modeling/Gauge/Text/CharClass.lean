/-!
# Classes of characters

A class is a list of inclusive ranges of code points.  `CharClass.blank` is the white space of
Unicode; `trim` removes it from both ends of a text.
-/

namespace Gauge

/-- A set of characters, as inclusive ranges of code points. -/
abbrev CharClass := List (Nat × Nat)

namespace CharClass

/-- Whether some range of the class holds the character. -/
def contains (cls : CharClass) (c : Char) : Bool :=
  cls.any fun (lo, hi) => decide (lo ≤ c.toNat) && decide (c.toNat ≤ hi)

/-- The white space characters of Unicode. -/
def blank : CharClass :=
  [(0x09, 0x0D), (0x20, 0x20), (0x85, 0x85), (0xA0, 0xA0), (0x1680, 0x1680), (0x2000, 0x200A),
   (0x2028, 0x2029), (0x202F, 0x202F), (0x205F, 0x205F), (0x3000, 0x3000)]

end CharClass

/-- White space, in any script. -/
def isBlank (c : Char) : Bool := CharClass.blank.contains c

/-- A text without the white space it ends with. -/
def trimRight (cs : List Char) : List Char := (cs.reverse.dropWhile isBlank).reverse

/-- A text without the white space at its two ends. -/
def trim (cs : List Char) : List Char := trimRight (cs.dropWhile isBlank)

/-- The number of bytes a text takes in UTF-8. -/
def width (cs : List Char) : Nat := cs.foldr (fun c n => c.utf8Size + n) 0

@[simp] theorem width_nil : width [] = 0 := rfl

@[simp] theorem width_cons (c : Char) (cs : List Char) :
    width (c :: cs) = c.utf8Size + width cs := rfl

@[simp] theorem width_append (as bs : List Char) : width (as ++ bs) = width as + width bs := by
  induction as with
  | nil => simp
  | cons a as ih => simp [ih, Nat.add_assoc]

end Gauge
