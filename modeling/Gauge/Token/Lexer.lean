import Gauge.Error
import Gauge.Text.CharClass
import Gauge.Token

/-!
# From text to tokens

`tokenize` reads a source from left to right.  At each place the first character, with the one
after it for comments, decides what follows: white space, a comment, a string, a number, a word,
a mark or an operator.
-/

namespace Gauge

/-- What may follow the first character of a word or a number. -/
def isWordChar (c : Char) : Bool :=
  ('0' ≤ c && c ≤ '9') || ('a' ≤ c && c ≤ 'z') || ('A' ≤ c && c ≤ 'Z') || c = '_'

def isDecimal (c : Char) : Bool := '0' ≤ c && c ≤ '9'

/-- The characters operators are made of. -/
def isOperatorChar (c : Char) : Bool := "-+*/%=!<>&|".toList.contains c

/-- A run of operator characters, up to the comment that may begin inside it. -/
def cutAtComment : List Char → List Char
  | [] => []
  | '/' :: '/' :: _ => []
  | '/' :: '*' :: _ => []
  | c :: cs => c :: cutAtComment cs

/-- The number of characters up to the first `*/`. -/
def commentEnd? : List Char → Option Nat
  | [] => none
  | '*' :: '/' :: _ => some 0
  | _ :: cs => (commentEnd? cs).map (· + 1)

/-- What a character means after a backslash. -/
def unescape? : Char → Option Char
  | 'n' => some '\n'
  | 't' => some '\t'
  | 'r' => some '\r'
  | '0' => some '\x00'
  | '\\' => some '\\'
  | '"' => some '"'
  | _ => none

/-- Reads a string after its opening quote, which stands at `opening`; `offset` is where the text
goes on.  Gives the value and the number of characters up to and with the closing quote. -/
def readString (file : String) (opening : Nat) :
    (offset : Nat) → List Char → Except Error (List Char × Nat)
  | _, [] => .error ⟨.unterminatedString, opening, file⟩
  | _, '"' :: _ => .ok ([], 1)
  | _, ['\\'] => .error ⟨.unterminatedString, opening, file⟩
  | offset, '\\' :: c :: cs =>
    match unescape? c with
    | none => .error ⟨.invalidEscapeSequence (String.ofList ['\\', c]), offset, file⟩
    | some d =>
      (readString file opening (offset + 1 + c.utf8Size) cs).map fun (v, n) => (d :: v, n + 2)
  | offset, c :: cs =>
    (readString file opening (offset + c.utf8Size) cs).map fun (v, n) => (c :: v, n + 1)

/-- A piece of source: the token it is, if any, and how many characters it takes. -/
structure Piece where
  token : Option (TokenKind × String)
  length : Nat
deriving DecidableEq

namespace Piece

/-- The token that a piece is, if any. -/
def found (piece : Piece) (span : Span) : List Token :=
  (piece.token.map fun t => (⟨t.1, t.2, span⟩ : Token)).toList

/-- White space and comments. -/
def skip (length : Nat) : Piece := ⟨none, length⟩

/-- A token whose value is its text. -/
def verbatim (kind : TokenKind) (text : List Char) : Piece :=
  ⟨some (kind, String.ofList text), text.length⟩

/-- A word, reserved or not. -/
def word (text : List Char) : Piece := verbatim (.ofWord (String.ofList text)) text

/-- The operator that a text starts with. -/
def operator (file : String) (offset : Nat) (cs : List Char) : Except Error Piece :=
  let run := String.ofList (cutAtComment (cs.takeWhile isOperatorChar))
  match TokenKind.operators.lookup run with
  | none => .error ⟨.ambiguousOperator run, offset, file⟩
  | some kind => .ok ⟨some (kind, run), run.length⟩

/-- The piece of source that starts at `offset` with the character `c`. -/
def first (file : String) (offset : Nat) (c : Char) (cs : List Char) : Except Error Piece :=
  if isBlank c then .ok (skip ((cs.takeWhile isBlank).length + 1))
  else if c = '/' ∧ cs.head? = some '/' then .ok (skip ((cs.takeWhile (· ≠ '\n')).length + 1))
  else if c = '/' ∧ cs.head? = some '*' then
    match commentEnd? cs.tail with
    | none => .error ⟨.unterminatedComment, offset, file⟩
    | some n => .ok (skip (n + 4))
  else if c = '"' then
    (readString file offset (offset + 1) cs).map fun (v, n) =>
      ⟨some (.string, String.ofList v), n + 1⟩
  else if isDecimal c then .ok (verbatim .number (c :: cs.takeWhile isWordChar))
  else if isWordChar c then .ok (word (c :: cs.takeWhile isWordChar))
  else match TokenKind.ofMark? c with
    | some kind => .ok (verbatim kind [c])
    | none =>
      if isOperatorChar c then operator file offset (c :: cs)
      else .error ⟨.unrecognisedToken (String.singleton c), offset, file⟩

/-- No operator is empty. -/
theorem operator_length_pos {file : String} {offset : Nat} {cs : List Char} {piece : Piece}
    (h : operator file offset cs = .ok piece) : 0 < piece.length := by
  unfold operator at h
  dsimp only at h
  split at h
  · cases h
  · next kind hk =>
    cases h
    refine Nat.pos_of_ne_zero fun empty => ?_
    rw [String.length_eq_zero_iff.mp empty] at hk
    cases hk

/-- Every piece takes a character, so reading goes on behind its start. -/
theorem first_length_pos {file : String} {offset : Nat} {c : Char} {cs : List Char} {piece : Piece}
    (h : first file offset c cs = .ok piece) : 0 < piece.length := by
  unfold first at h
  split at h
  · cases h
    exact Nat.succ_pos _
  split at h
  · cases h
    exact Nat.succ_pos _
  split at h
  · split at h <;> cases h
    exact Nat.succ_pos _
  split at h
  · cases hr : readString file offset (offset + 1) cs with
    | error e =>
      rw [hr] at h
      cases h
    | ok r =>
      rw [hr] at h
      cases h
      exact Nat.succ_pos _
  split at h
  · cases h
    exact Nat.succ_pos _
  split at h
  · cases h
    exact Nat.succ_pos _
  split at h
  · cases h
    exact Nat.succ_pos _
  split at h
  · exact operator_length_pos h
  · cases h

end Piece

/-- The tokens of a text that starts at `offset`, with the one that ends it. -/
def tokensFrom (file : String) (offset : Nat) : List Char → Except Error (List Token)
  | [] => .ok [.eof ⟨offset, file⟩]
  | c :: cs =>
    match _taken : Piece.first file offset c cs with
    | .error e => .error e
    | .ok piece => do
      let stop := offset + width ((c :: cs).take piece.length)
      let rest ← tokensFrom file stop ((c :: cs).drop piece.length)
      return piece.found (.inFile file offset stop) ++ rest
termination_by cs => cs.length
decreasing_by
  have := Piece.first_length_pos _taken
  simp only [List.length_drop, List.length_cons]
  omega

/-- Reading goes on behind the first piece. -/
theorem tokensFrom_cons (file : String) (offset : Nat) (c : Char) (cs : List Char) :
    tokensFrom file offset (c :: cs) = (do
      let piece ← Piece.first file offset c cs
      let stop := offset + width ((c :: cs).take piece.length)
      let rest ← tokensFrom file stop ((c :: cs).drop piece.length)
      return piece.found (.inFile file offset stop) ++ rest) := by
  rw [tokensFrom]
  split
  · next h =>
    rw [h]
    rfl
  · next h =>
    rw [h]
    rfl

/-- The tokens of a program in a file. -/
def tokenize (file source : String) : Except Error (List Token) := tokensFrom file 0 source.toList

end Gauge
