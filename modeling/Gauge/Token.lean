import Gauge.Span

/-!
# Tokens

The smallest pieces of a program with a meaning, and the two tables that tell reserved words and
operators from other text.
-/

namespace Gauge

/-- What a token is. -/
inductive TokenKind where
  | eof
  | number
  | string
  | identifier
  | openCurly
  | closeCurly
  | openParen
  | closeParen
  | semicolon
  | colon
  | comma
  | assignment
  | equals
  | not
  | notEquals
  | less
  | lessEquals
  | greater
  | greaterEquals
  | or
  | and
  | ampersand
  | arrow
  | plus
  | dash
  | star
  | slash
  | percent
  | kwDef
  | kwExtern
  | kwStruct
  | kwReturn
  | kwIf
  | kwElse
  | kwWhile
  | kwAs
  | kwMut
  | kwTrue
  | kwFalse
  | kwNull
deriving DecidableEq

namespace TokenKind

/-- Every kind of token. -/
def all : List TokenKind :=
  [.eof, .number, .string, .identifier, .openCurly, .closeCurly, .openParen, .closeParen,
   .semicolon, .colon, .comma, .assignment, .equals, .not, .notEquals, .less, .lessEquals,
   .greater, .greaterEquals, .or, .and, .ampersand, .arrow, .plus, .dash, .star, .slash,
   .percent, .kwDef, .kwExtern, .kwStruct, .kwReturn, .kwIf, .kwElse, .kwWhile, .kwAs, .kwMut,
   .kwTrue, .kwFalse, .kwNull]

/-- The name of a kind of token. -/
def name : TokenKind → String
  | .eof => "EOF"
  | .number => "Number"
  | .string => "String"
  | .identifier => "Identifier"
  | .openCurly => "OpenCurly"
  | .closeCurly => "CloseCurly"
  | .openParen => "OpenParen"
  | .closeParen => "CloseParen"
  | .semicolon => "Semicolon"
  | .colon => "Colon"
  | .comma => "Comma"
  | .assignment => "Assignment"
  | .equals => "Equals"
  | .not => "Not"
  | .notEquals => "NotEquals"
  | .less => "Less"
  | .lessEquals => "LessEquals"
  | .greater => "Greater"
  | .greaterEquals => "GreaterEquals"
  | .or => "Or"
  | .and => "And"
  | .ampersand => "Ampersand"
  | .arrow => "Arrow"
  | .plus => "Plus"
  | .dash => "Dash"
  | .star => "Star"
  | .slash => "Slash"
  | .percent => "Percent"
  | .kwDef => "Def"
  | .kwExtern => "Extern"
  | .kwStruct => "Struct"
  | .kwReturn => "Return"
  | .kwIf => "If"
  | .kwElse => "Else"
  | .kwWhile => "While"
  | .kwAs => "As"
  | .kwMut => "Mut"
  | .kwTrue => "True"
  | .kwFalse => "False"
  | .kwNull => "Null"

/-- The kind of a given name. -/
def ofName? (s : String) : Option TokenKind := all.find? (·.name = s)

/-- The words that are no identifiers. -/
def reserved : List (String × TokenKind) :=
  [("def", .kwDef), ("extern", .kwExtern), ("struct", .kwStruct), ("return", .kwReturn),
   ("if", .kwIf), ("else", .kwElse), ("while", .kwWhile), ("as", .kwAs), ("mut", .kwMut),
   ("true", .kwTrue), ("false", .kwFalse), ("null", .kwNull)]

/-- Every operator.  A run of operator characters spells exactly one of them. -/
def operators : List (String × TokenKind) :=
  [("=", .assignment), ("==", .equals), ("!", .not), ("!=", .notEquals), ("<", .less),
   ("<=", .lessEquals), (">", .greater), (">=", .greaterEquals), ("||", .or), ("&&", .and),
   ("&", .ampersand), ("->", .arrow), ("+", .plus), ("-", .dash), ("*", .star), ("/", .slash),
   ("%", .percent)]

/-- Reserved words have a kind of their own, all others are identifiers. -/
def ofWord (s : String) : TokenKind := (reserved.lookup s).getD .identifier

/-- The marks that stand for themselves. -/
def ofMark? : Char → Option TokenKind
  | '{' => some .openCurly
  | '}' => some .closeCurly
  | '(' => some .openParen
  | ')' => some .closeParen
  | ';' => some .semicolon
  | ':' => some .colon
  | ',' => some .comma
  | _ => none

end TokenKind

/-- A token: its kind, its value and where it stands.  The value of a string is what it denotes,
every other value is the text of the token. -/
structure Token where
  kind : TokenKind
  value : String
  span : Span
deriving DecidableEq

namespace Token

/-- The token that ends every program, at the end of its text. -/
def eof (p : Position) : Token := ⟨.eof, "EOF", ⟨p, p⟩⟩

/-- The token's kind, with its value where the kind leaves it open. -/
def text (t : Token) : String :=
  match t.kind with
  | .string | .identifier | .number => t.kind.name ++ " (" ++ t.value ++ ")"
  | _ => t.kind.name

end Token

end Gauge
