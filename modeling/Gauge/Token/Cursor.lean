import Gauge.Error
import Gauge.Token

/-!
# Reading tokens one by one

A `Cursor` holds the tokens still to be read.  At the end of the program it keeps giving the end
token, so there is always a current token.
-/

namespace Gauge

/-- A place in a list of tokens: those ahead, where the program ends and starts, and the end of the
token read last. -/
structure Cursor where
  ahead : List Token
  finish : Position
  origin : Position
  lastEnd? : Option Position
deriving DecidableEq

namespace Cursor

/-- At the start of a program's tokens; the end token is not among those ahead. -/
def start (file : String) (tokens : List Token) : Cursor :=
  { ahead := tokens.filter (·.kind ≠ .eof)
    finish := ((tokens.find? (·.kind = .eof)).map (·.span.start)).getD ⟨0, file⟩
    origin := ⟨0, file⟩
    lastEnd? := none }

/-- The token to be read next. -/
def current (c : Cursor) : Token := c.ahead.head?.getD (.eof c.finish)

def kind (c : Cursor) : TokenKind := c.current.kind

/-- The kind of the token `n` places after the current one. -/
def peek (c : Cursor) (n : Nat) : TokenKind := (c.ahead[n]?.map (·.kind)).getD .eof

/-- The cursor after the current token. -/
def next (c : Cursor) : Cursor :=
  { c with ahead := c.ahead.tail, lastEnd? := some c.current.span.stop }

/-- Whether anything is left before the end of the program. -/
def hasTokens (c : Cursor) : Bool := c.kind ≠ .eof

/-- The start of the current token. -/
def position (c : Cursor) : Position := c.current.span.start

/-- The end of the token read last, or the start of the text. -/
def lastEnd (c : Cursor) : Position := c.lastEnd?.getD c.origin

/-- From `start` to the end of the token read last. -/
def spanFrom (c : Cursor) (start : Position) : Span := ⟨start, c.lastEnd⟩

/-- The error at the current token: at the end of the program it is the end itself that is
unexpected. -/
def refuse (c : Cursor) (cause : Cause) : Error :=
  ⟨if c.kind = .eof then .unexpectedEof else cause, c.position⟩

/-- The current token, in an error that only names it. -/
def unexpected (c : Cursor) : Cause := .unexpectedToken c.current.value

/-- The current token, in an error that says what was wanted. -/
def wanted (c : Cursor) (message : String) : Cause :=
  .unexpectedTokenDetailed c.current.value message

/-- Reads a token of the given kind, or refuses the current one with a cause. -/
def expectOr (c : Cursor) (kind : TokenKind) (cause : Cause) : Except Error (Token × Cursor) :=
  if c.kind = kind then .ok (c.current, c.next) else .error (c.refuse cause)

/-- Reads a token of the given kind. -/
def expect (c : Cursor) (kind : TokenKind) : Except Error (Token × Cursor) :=
  c.expectOr kind c.unexpected

/-- Reads the current token if it is of the given kind. -/
def accept (c : Cursor) (kind : TokenKind) : Bool × Cursor :=
  if c.kind = kind then (true, c.next) else (false, c)

end Cursor

end Gauge
