import Gauge.Fault
import Gauge.Syntax
import Gauge.Token.Cursor

/-!
# From tokens to syntax trees

Expressions are read by binding power: a prefix form first, then every infix form that binds
tighter than the context asks for.  Two tables say which tokens begin such forms and what reads them
(`PrefixReader.ofKind?`, `InfixReader.ofKind?`); a reader takes its token apart itself, and a token
that it does not know, were the tables to send it one, is a fault.  Items, statements and types are
told by their first token, so nothing is read twice, and reading stops at the first token that
cannot go on.

The functions take a bound on the depth of their recursion.  Every token is reached within
`depthPerToken` calls, so the bound that `Cursor.depth` gives is never met.
-/

namespace Gauge

/-- Reading a part of a program from a cursor. -/
abbrev Parse := StateT Cursor (Except Failure)

namespace Parse

def current : Parse Token := fun c => .ok (c.current, c)

def kind : Parse TokenKind := fun c => .ok (c.kind, c)

/-- Reads the current token, whatever it is. -/
def advance : Parse Token := fun c => .ok (c.current, c.next)

def expect (k : TokenKind) : Parse Token := fun c => Failure.ofError (c.expect k)

/-- Reads a token of the given kind, or says what was wanted. -/
def expectFor (k : TokenKind) (message : String) : Parse Token :=
  fun c => Failure.ofError (c.expectOr k (c.wanted message))

def accept (k : TokenKind) : Parse Bool := fun c => .ok (c.accept k)

/-- Refuses the current token. -/
def refuse {α : Type} : Parse α := fun c => .error (.error (c.refuse c.unexpected))

/-- Refuses the current token and says what was wanted. -/
def refuseFor {α : Type} (message : String) : Parse α :=
  fun c => .error (.error (c.refuse (c.wanted message)))

def ofFault {α : Type} (x : Except Fault α) : Parse α := fun c => (Failure.ofFault x).map (·, c)

def spanFrom (start : Position) : Parse Span := fun c => .ok (c.spanFrom start, c)

end Parse

/-- How tightly an operator holds its operands, weakest first. -/
inductive Power where
  | default
  | comma
  | assignment
  | logicalOr
  | logicalAnd
  | relational
  | additive
  | multiplicative
  | cast
  | unary
  | call
deriving DecidableEq

namespace Power

def rank : Power → Nat
  | .default => 0
  | .comma => 1
  | .assignment => 2
  | .logicalOr => 3
  | .logicalAnd => 4
  | .relational => 5
  | .additive => 6
  | .multiplicative => 7
  | .cast => 8
  | .unary => 9
  | .call => 10

/-- Binds strictly tighter. -/
def tighter (a b : Power) : Bool := decide (b.rank < a.rank)

end Power

/-- What reads an expression that begins with a token. -/
inductive PrefixReader where
  | primary
  | operator
  | grouping
  | block
  | conditional
deriving DecidableEq

/-- The tokens that begin an expression. -/
def PrefixReader.ofKind? : TokenKind → Option PrefixReader
  | .number | .identifier | .kwTrue | .kwFalse | .kwNull => some .primary
  | .dash | .not | .ampersand | .star => some .operator
  | .openParen => some .grouping
  | .openCurly => some .block
  | .kwIf => some .conditional
  | _ => none

/-- What reads on from a token behind an operand. -/
inductive InfixReader where
  | assign
  | logical
  | binary
  | cast
  | call
deriving DecidableEq

/-- The tokens that may follow an operand, and how tightly they hold it. -/
def InfixReader.ofKind? : TokenKind → Option (Power × InfixReader)
  | .assignment => some (.assignment, .assign)
  | .or => some (.logicalOr, .logical)
  | .and => some (.logicalAnd, .logical)
  | .less | .lessEquals | .greater | .greaterEquals | .equals | .notEquals =>
    some (.relational, .binary)
  | .plus | .dash => some (.additive, .binary)
  | .star | .slash | .percent => some (.multiplicative, .binary)
  | .kwAs => some (.cast, .cast)
  | .openParen => some (.call, .call)
  | _ => none

/-- What a token means between two operands, or after one. -/
inductive InfixForm where
  | assign
  | logical (op : LogicalOp)
  | binary (op : BinaryOp)
  | cast
  | call
deriving DecidableEq

/-- The operator between two operands that a token stands for. -/
def BinaryOp.ofKind? : TokenKind → Option BinaryOp
  | .plus => some .add
  | .dash => some .subtract
  | .star => some .multiply
  | .slash => some .divide
  | .percent => some .modulo
  | .equals => some .equals
  | .notEquals => some .notEquals
  | .less => some .less
  | .lessEquals => some .lessEquals
  | .greater => some .greater
  | .greaterEquals => some .greaterEquals
  | _ => none

/-- What a reader takes its token for. -/
def InfixReader.form : InfixReader → TokenKind → Except Fault InfixForm
  | .assign, _ => .ok .assign
  | .logical, .and => .ok (.logical .and)
  | .logical, _ => .ok (.logical .or)
  | .binary, k =>
    match BinaryOp.ofKind? k with
    | some op => .ok (.binary op)
    | none => .error (.registeredAs k.name "binary operator")
  | .cast, _ => .ok .cast
  | .call, _ => .ok .call

/-- The prefix operator a token stands for. -/
def PrefixOp.ofKind? : TokenKind → Option PrefixOp
  | .dash => some .negate
  | .not => some .not
  | .ampersand => some .addressOf
  | .star => some .dereference
  | _ => none

/-- The expression that a single token is. -/
def Expr.ofToken? (t : Token) : Option Expr :=
  match t.kind with
  | .number => some (.literal t.span (.number t.value))
  | .kwTrue => some (.literal t.span (.bool true))
  | .kwFalse => some (.literal t.span (.bool false))
  | .kwNull => some (.literal t.span .null)
  | .identifier => some (.identifier t.span t.value)
  | _ => none

namespace Parse

/-- A type: a name, `*T` or `mut T`. -/
def type : Nat → Parse TypeExpr
  | 0 => refuse
  | n + 1 => do
    let token ← current
    match token.kind with
    | .identifier =>
      let _ ← advance
      return .named token.span token.value
    | .star =>
      let _ ← advance
      let pointed ← type n
      return .pointer (← spanFrom token.span.start) pointed
    | .kwMut =>
      let _ ← advance
      let inner ← type n
      return .mutable (← spanFrom token.span.start) inner
    | _ => refuseFor "expected a type"

mutual

/-- An expression whose infix forms bind tighter than `power`. -/
def expr : Nat → Power → Parse Expr
  | 0, _ => refuse
  | n + 1, power => do
    let left ← prefixForm n
    infixForms n power left

/-- What an expression starts with: a literal, a name, a prefix operator and its operand, a
parenthesised expression, a block or a conditional. -/
def prefixForm : Nat → Parse Expr
  | 0 => refuse
  | n + 1 => do
    match PrefixReader.ofKind? (← kind) with
    | some .primary =>
      let token ← advance
      match Expr.ofToken? token with
      | some e => return e
      | none => ofFault (.error (.registeredAs token.kind.name "primary expression"))
    | some .operator =>
      let token ← advance
      match PrefixOp.ofKind? token.kind with
      | some op =>
        let operand ← expr n .unary
        return .prefixed (← spanFrom token.span.start) op operand
      | none => ofFault (.error (.registeredAs token.kind.name "prefix operator"))
    | some .grouping =>
      let _ ← advance
      let inner ← expr n .default
      let _ ← expect .closeParen
      return inner
    | some .block => return .block (← block n)
    | some .conditional => conditional n
    | none => refuse

/-- Extends an expression by the infix forms that bind tighter than `power`. -/
def infixForms : Nat → Power → Expr → Parse Expr
  | 0, _, _ => refuse
  | n + 1, power, left => do
    match InfixReader.ofKind? (← kind) with
    | none => return left
    | some (next, reader) =>
      if next.tighter power then
        let token ← advance
        let form ← ofFault (reader.form token.kind)
        let extended ← infixForm n form next left
        infixForms n power extended
      else return left

/-- The rest of an infix form after its first token; `power` is how tightly it holds its operands.
-/
def infixForm : Nat → InfixForm → Power → Expr → Parse Expr
  | 0, _, _, _ => refuse
  | n + 1, form, power, left => do
    match form with
    | .assign =>
      let value ← expr n .comma
      return .assign (left.span.upTo value.span) left value
    | .logical op =>
      let right ← expr n power
      return .logical (left.span.upTo right.span) op left right
    | .binary op =>
      let right ← expr n power
      return .binary (left.span.upTo right.span) op left right
    | .cast =>
      let target ← type n
      return .cast (left.span.upTo target.span) left target
    | .call =>
      let arguments ← arguments n
      let _ ← expect .closeParen
      return .call (← spanFrom left.span.start) left arguments

/-- The arguments of a call, up to the closing parenthesis; a comma may follow the last. -/
def arguments : Nat → Parse (List Expr)
  | 0 => refuse
  | n + 1 => do
    if (← kind) = .closeParen then return []
    else
      let first ← expr n .comma
      if ← accept .comma then return first :: (← arguments n)
      else return [first]

/-- Statements between braces. -/
def block : Nat → Parse Block
  | 0 => refuse
  | n + 1 => do
    let start := (← expect .openCurly).span.start
    let body ← statements n
    let _ ← expect .closeCurly
    return .mk (← spanFrom start) body

/-- Statements up to a closing brace or the end of the program. -/
def statements : Nat → Parse (List Stmt)
  | 0 => refuse
  | n + 1 => do
    let k ← kind
    if k = .closeCurly ∨ k = .eof then return []
    else
      let first ← stmt n
      return first :: (← statements n)

/-- A conditional.  `else if` puts the next conditional in a block of its own. -/
def conditional : Nat → Parse Expr
  | 0 => refuse
  | n + 1 => do
    let start := (← advance).span.start
    let condition ← expr n .default
    let thenBlock ← block n
    if ← accept .kwElse then
      if (← kind) = .kwIf then
        let nested ← conditional n
        let elseBlock := Block.mk nested.span [.expr nested.span nested]
        return .conditional (← spanFrom start) condition thenBlock (some elseBlock)
      else
        let elseBlock ← block n
        return .conditional (← spanFrom start) condition thenBlock (some elseBlock)
    else return .conditional (← spanFrom start) condition thenBlock none

/-- A statement.  One that starts with a block ends with it. -/
def stmt : Nat → Parse Stmt
  | 0 => refuse
  | n + 1 => do
    let token ← current
    let start := token.span.start
    match token.kind with
    | .kwDef =>
      let _ ← advance
      definition n start
    | .kwReturn =>
      let _ ← advance
      if (← kind) = .semicolon then
        let _ ← expect .semicolon
        return .ret (← spanFrom start) none
      else
        let value ← expr n .default
        let _ ← expect .semicolon
        return .ret (← spanFrom start) (some value)
    | .kwWhile =>
      let _ ← advance
      let condition ← expr n .default
      let body ← block n
      return .loop (← spanFrom start) condition body
    | .kwIf | .openCurly =>
      let value ← prefixForm n
      let _ ← accept .semicolon
      return .expr (← spanFrom start) value
    | _ =>
      let value ← expr n .default
      if (← kind) = .closeCurly then return .expr (← spanFrom start) value
      else
        let _ ← expect .semicolon
        return .expr (← spanFrom start) value

/-- The rest of a variable's definition, which starts at `start`. -/
def definition : Nat → Position → Parse Stmt
  | 0, _ => refuse
  | n + 1, start => do
    let name := (← expectFor .identifier "expected identifier during variable definition").value
    if (← kind) = .openParen then refuseFor "functions can only be defined at module level"
    else if ← accept .colon then
      let annotation ← type n
      if ← accept .assignment then
        let init ← expr n .default
        let _ ← expect .semicolon
        return .define (← spanFrom start) name (some annotation) (some init)
      else
        let _ ← expect .semicolon
        return .define (← spanFrom start) name (some annotation) none
    else if ← accept .assignment then
      let init ← expr n .default
      let _ ← expect .semicolon
      return .define (← spanFrom start) name none (some init)
    else refuseFor "expected a type or an initializer"

end

/-- The parameters of a function, up to the closing parenthesis; a comma may follow the last. -/
def parameters : Nat → Parse (List Parameter)
  | 0 => refuse
  | n + 1 => do
    if (← kind) = .closeParen then return []
    else
      let token ← expect .identifier
      let _ ← expect .colon
      let annotation ← type n
      let first : Parameter := ⟨token.value, annotation, ← spanFrom token.span.start⟩
      if ← accept .comma then return first :: (← parameters n)
      else return [first]

/-- Name, parameters and result of a function. -/
def functionHead (n : Nat) : Parse (String × List Parameter × Option TypeExpr) := do
  let _ ← expect .kwDef
  let name := (← expectFor .identifier "expected function name").value
  let _ ← expect .openParen
  let params ← parameters n
  let _ ← expect .closeParen
  if ← accept .arrow then return (name, params, some (← type n))
  else return (name, params, none)

/-- The members of a struct, up to the closing brace; the mark after the last may be left out. -/
def members : Nat → Parse (List (String × TypeExpr))
  | 0 => refuse
  | n + 1 => do
    if (← kind) = .closeCurly then return []
    else
      let name := (← expect .identifier).value
      let _ ← expect .colon
      let annotation ← type n
      if ← accept .semicolon then return (name, annotation) :: (← members n)
      else if ← accept .comma then return (name, annotation) :: (← members n)
      else return [(name, annotation)]

/-- A function, a function defined elsewhere, or a struct. -/
def item (n : Nat) : Parse Item := do
  let token ← current
  let start := token.span.start
  match token.kind with
  | .kwDef =>
    let (name, params, result) ← functionHead n
    let body ← block n
    return .function ⟨name, params, result, .block body, ← spanFrom start⟩
  | .kwExtern =>
    let _ ← advance
    let abi ← expectFor .string "expected ABI name string"
    let (name, params, result) ← functionHead n
    let _ ← expect .semicolon
    return .function ⟨name, params, result, .foreign abi.value abi.span, ← spanFrom start⟩
  | .kwStruct =>
    let _ ← advance
    let name := (← expect .identifier).value
    let _ ← expect .openCurly
    let fields ← members n
    let _ ← expect .closeCurly
    return .struct ⟨name, fields, ← spanFrom start⟩
  | _ => refuseFor "expected a function or struct definition"

/-- Items up to the end of the program. -/
def items : Nat → Parse (List Item)
  | 0 => refuse
  | n + 1 => do
    if (← kind) = .eof then return []
    else
      let first ← item n
      return first :: (← items n)

end Parse

/-- How many nested calls reading may take between two tokens. -/
def depthPerToken : Nat := 8

namespace Cursor

/-- A bound on the depth of reading what lies ahead. -/
def depth (c : Cursor) : Nat := depthPerToken * (c.ahead.length + 1)

def parseExpr (c : Cursor) (power : Power) : Except Failure (Expr × Cursor) :=
  Parse.expr c.depth power c

def parseStmt (c : Cursor) : Except Failure (Stmt × Cursor) := Parse.stmt c.depth c

def parseType (c : Cursor) : Except Failure (TypeExpr × Cursor) := Parse.type c.depth c

def parseBlock (c : Cursor) : Except Failure (Block × Cursor) := Parse.block c.depth c

def parseItem (c : Cursor) : Except Failure (Item × Cursor) := Parse.item c.depth c

end Cursor

/-- The syntax tree of a whole program, whose tokens come from a file. -/
def parse (file : String) (tokens : List Token) : Except Failure ModuleSyntax := do
  let c := Cursor.start file tokens
  let (found, c) ← Parse.items c.depth c
  return ⟨found, ⟨⟨0, file⟩, c.position⟩⟩

end Gauge
