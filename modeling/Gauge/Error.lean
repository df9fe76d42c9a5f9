import Gauge.Span
import Gauge.Text.Quoted

/-!
# Errors

What can be wrong with a program, and the words for it.  A `Cause` has a name, a message and,
most of the time, a tip; an `Error` is a cause at a position of the source.
-/

namespace Gauge

/-- What is wrong with a program. -/
inductive Cause where
  -- lexical
  | unrecognisedToken (token : String)
  | unterminatedString
  | unterminatedComment
  | ambiguousOperator (operator : String)
  | invalidEscapeSequence (sequence : String)
  | numberParseError (token : String)
  | invalidDecimalLiteral (token : String)
  -- syntactic
  | unexpectedToken (token : String)
  | unexpectedTokenDetailed (token message : String)
  | unexpectedEof
  -- names
  | symbolRedefined (symbol : String)
  | symbolNotFound (symbol : String)
  | multipleDefinitions (symbol : String)
  -- types
  | incompatibleTypes (operator left right : String)
  | castNotAllowed (source target : String)
  | ambiguousCast (source target : String)
  | pointerExpected (received : String)
  | lvalueRequired
  | assignToImmutable (type : String)
  | tryToCallNonCallable (type : String)
  | cannotTakeValueOfFunction (function : String)
  | noMatchingOverload (function : String)
  | ambiguousOverload (function : String)
  | unidentifiedAbi (abi : String)
  | expressionTooExpensive
  | returnOutsideFunction
  | incompleteType (type : String)
  -- violations certain to happen when the program runs
  | knownRuntimeViolation (message : String)
  | notImplemented (feature : String)
  | io (message : String)
deriving DecidableEq

namespace Cause

/-- The name that reports give a cause. -/
def name : Cause → String
  | .unrecognisedToken _ => "UnrecognisedToken"
  | .unterminatedString => "UnterminatedString"
  | .unterminatedComment => "UnterminatedComment"
  | .ambiguousOperator _ => "AmbiguousOperator"
  | .invalidEscapeSequence _ => "InvalidEscapeSequence"
  | .numberParseError _ => "NumberParseError"
  | .invalidDecimalLiteral _ => "InvalidDecimalLiteral"
  | .unexpectedToken _ => "UnexpectedToken"
  | .unexpectedTokenDetailed _ _ => "UnexpectedTokenDetailed"
  | .unexpectedEof => "UnexpectedEof"
  | .symbolRedefined _ => "SymbolRedefined"
  | .symbolNotFound _ => "SymbolNotFound"
  | .multipleDefinitions _ => "MultipleDefinitions"
  | .incompatibleTypes _ _ _ => "IncompatibleTypes"
  | .castNotAllowed _ _ => "CastNotAllowed"
  | .ambiguousCast _ _ => "AmbiguousCast"
  | .pointerExpected _ => "PointerExpected"
  | .lvalueRequired => "LValueRequired"
  | .assignToImmutable _ => "AssignToImmutable"
  | .tryToCallNonCallable _ => "TryToCallNonCallable"
  | .cannotTakeValueOfFunction _ => "CannotTakeValueOfFunction"
  | .noMatchingOverload _ => "NoMatchingOverload"
  | .ambiguousOverload _ => "AmbiguousOverload"
  | .unidentifiedAbi _ => "UnidentifiedAbi"
  | .expressionTooExpensive => "ExpressionTooExpensive"
  | .returnOutsideFunction => "ReturnOutsideFunction"
  | .incompleteType _ => "IncompleteType"
  | .knownRuntimeViolation _ => "KnownRuntimeViolation"
  | .notImplemented _ => "NotImplemented"
  | .io _ => "Io"

/-- One line saying what is wrong. -/
def message : Cause → String
  | .unrecognisedToken t => "unrecognised token: " ++ quoted t
  | .unterminatedString => "unterminated string literal"
  | .unterminatedComment => "unterminated block comment"
  | .ambiguousOperator o => "ambiguous operator sequence " ++ quoted o
  | .invalidEscapeSequence s => "invalid escape sequence " ++ quoted s
  | .numberParseError t => "error parsing number: " ++ quoted t
  | .invalidDecimalLiteral t => "invalid decimal literal " ++ quoted t
  | .unexpectedToken t => "unexpected token: " ++ quoted t
  | .unexpectedTokenDetailed t m => "unexpected token (" ++ quoted m ++ "): " ++ quoted t
  | .unexpectedEof => "unexpected end of file"
  | .symbolRedefined s => "symbol " ++ quoted s ++ " redefined"
  | .symbolNotFound s => "symbol " ++ quoted s ++ " not found"
  | .multipleDefinitions s => "symbol " ++ quoted s ++ " has multiple definitions"
  | .incompatibleTypes o l r =>
    "incompatible types for " ++ quoted o ++ ": " ++ l ++ " and " ++ r
  | .castNotAllowed a b => "cast from " ++ a ++ " to " ++ b ++ " not allowed"
  | .ambiguousCast a b => "ambiguous cast from " ++ a ++ " to " ++ b
  | .pointerExpected r => "pointer expected, received " ++ r
  | .lvalueRequired => "lvalue required"
  | .assignToImmutable t => "assignment to immutable " ++ t
  | .tryToCallNonCallable t => "trying to call non-callable " ++ t
  | .cannotTakeValueOfFunction f => "cannot take the value of function " ++ quoted f
  | .noMatchingOverload f => "no matching overload for " ++ quoted f
  | .ambiguousOverload f => "ambiguous overload for " ++ quoted f
  | .unidentifiedAbi a => "unidentified ABI " ++ quoted a
  | .expressionTooExpensive => "expression too expensive"
  | .returnOutsideFunction => "return outside of a function"
  | .incompleteType t => "type " ++ t ++ " is incomplete"
  | .knownRuntimeViolation m => "known runtime violation: " ++ m
  | .notImplemented f => "not implemented: " ++ f
  | .io m => "i/o error: " ++ m

/-- What to do about it, where there is something to say. -/
def tip? : Cause → Option String
  | .unrecognisedToken _ => none
  | .unterminatedString => some "String literal is missing its closing `\"`"
  | .unterminatedComment => some "Block comment is missing its closing `*/`"
  | .ambiguousOperator o =>
    some ("`" ++ o ++ "` is not a single operator, separate the operators with whitespace")
  | .invalidEscapeSequence s => some ("Unknown escape sequence `" ++ s ++ "`")
  | .numberParseError t => some ("Invalid number: `" ++ t ++ "`, is it above the integer limit?")
  | .invalidDecimalLiteral t =>
    some ("`" ++ t ++ "` contains characters other than the digits 0-9")
  | .unexpectedToken t => some ("Unexpected token: `" ++ t ++ "`, did you miss a semicolon?")
  | .unexpectedTokenDetailed t m => some ("Unexpected token: `" ++ t ++ "`, " ++ m)
  | .unexpectedEof => some "The file ended in the middle of a construct"
  | .symbolRedefined s => some ("`" ++ s ++ "` is already defined in this scope")
  | .symbolNotFound s => some ("`" ++ s ++ "` is not defined in any enclosing scope")
  | .multipleDefinitions s =>
    some ("`" ++ s ++ "` is defined more than once with the same signature")
  | .incompatibleTypes o l r =>
    some ("No `" ++ o ++ "` operator accepts `" ++ l ++ "` and `" ++ r ++ "`")
  | .castNotAllowed a b => some ("Cannot convert `" ++ a ++ "` to `" ++ b ++ "`")
  | .ambiguousCast a b =>
    some ("More than one equally cheap conversion from `" ++ a ++ "` to `" ++ b ++
      "`, add an explicit cast")
  | .pointerExpected r => some ("Expected a pointer, received `" ++ r ++ "`")
  | .lvalueRequired => some "The expression does not denote a storage location"
  | .assignToImmutable t => some ("Cannot assign through `" ++ t ++ "`, declare it `mut`")
  | .tryToCallNonCallable t => some ("`" ++ t ++ "` is not a function")
  | .cannotTakeValueOfFunction f => some ("`" ++ f ++ "` is a function and can only be called")
  | .noMatchingOverload f => some ("No overload of `" ++ f ++ "` matches this call")
  | .ambiguousOverload f => some ("More than one overload of `" ++ f ++ "` matches this call")
  | .unidentifiedAbi a =>
    some ("Unknown ABI `" ++ a ++ "`, expected \"C\" or \"Practical\"")
  | .expressionTooExpensive => some "Too many implicit conversions, add explicit casts"
  | .returnOutsideFunction => some "`return` can only appear inside a function"
  | .incompleteType t =>
    some ("`" ++ t ++ "` contains itself by value, store a pointer to it instead")
  | .knownRuntimeViolation m => some m
  | .notImplemented f =>
    some (f ++ " is expected to be handled, but has not yet been implemented")
  | .io m => some m

end Cause

/-- A cause and the position it is found at. -/
structure Error where
  cause : Cause
  position : Position
deriving DecidableEq

/-- The byte offset that an error is found at. -/
def Error.offset (e : Error) : Nat := e.position.offset

/-- The cause's message and where it was found. -/
def Error.message (e : Error) : String :=
  e.cause.message ++ " at offset " ++ toString e.offset

end Gauge
