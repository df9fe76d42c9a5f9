import Gauge.Weight

/-!
# Command line options

What a compilation needs besides the source: where to read and write, and the two budgets.
-/

namespace Gauge

/-- The budgets of a compilation: for one search of a conversion, and for all conversions within
one expression. -/
structure Limits where
  cast : Weight
  expression : Weight
deriving DecidableEq

/-- The budgets used when none are given. -/
def Limits.standard : Limits := ⟨⟨8, 64⟩, ⟨256, 4096⟩⟩

/-- The options of a run. -/
structure Options where
  input : String
  output : Option String
  limits : Limits
  print : Bool
deriving DecidableEq

namespace Options

/-- The text that explains the command line. -/
def usage : String :=
  "\n".intercalate
    ["Usage: practicalc [options] <input>",
     "",
     "Options:",
     "  -o, --output <path>                 Write the generated listing to <path>",
     "      --print                         Print the generated listing to stdout",
     "      --max-cast-weight <len:cost>    Budget of a single cast chain search",
     "      --max-expression-weight <len:cost>",
     "                                      Budget of implicit casts within one expression",
     "  -h, --help                          Show this message"]

/-- What is wrong with a command line.  A call for help is answered the same way. -/
inductive ReadError where
  | help
  | missingValue (option : String)
  | badWeight (error : Weight.ReadError)
  | unknownOption (text : String)
  | unexpectedArgument (text : String)
  | noInput
deriving DecidableEq

def ReadError.message : ReadError → String
  | .help => usage
  | .missingValue o => "missing value for " ++ o
  | .badWeight e => e.message
  | .unknownOption s => "unknown option " ++ quoted s
  | .unexpectedArgument s => "unexpected argument " ++ quoted s
  | .noInput => "no input file given"

/-- The options read so far; the input may still be missing. -/
structure Partial where
  input : Option String := none
  output : Option String := none
  limits : Limits := .standard
  print : Bool := false
deriving DecidableEq

/-- Reads the words of a command line from left to right. -/
def readFrom (given : Partial) : List String → Except ReadError Options
  | [] =>
    match given.input with
    | none => .error .noInput
    | some input => .ok ⟨input, given.output, given.limits, given.print⟩
  | ["-o"] | ["--output"] => .error (.missingValue "--output")
  | "-o" :: path :: rest | "--output" :: path :: rest =>
    readFrom { given with output := some path } rest
  | "--print" :: rest => readFrom { given with print := true } rest
  | ["--max-cast-weight"] => .error (.missingValue "--max-cast-weight")
  | "--max-cast-weight" :: value :: rest =>
    match Weight.read value with
    | .error e => .error (.badWeight e)
    | .ok w => readFrom { given with limits := { given.limits with cast := w } } rest
  | ["--max-expression-weight"] => .error (.missingValue "--max-expression-weight")
  | "--max-expression-weight" :: value :: rest =>
    match Weight.read value with
    | .error e => .error (.badWeight e)
    | .ok w => readFrom { given with limits := { given.limits with expression := w } } rest
  | "-h" :: _ | "--help" :: _ => .error .help
  | word :: rest =>
    if word.toList.head? = some '-' then .error (.unknownOption word)
    else match given.input with
      | some _ => .error (.unexpectedArgument word)
      | none => readFrom { given with input := some word } rest

/-- The options that the words of a command line ask for. -/
def read (words : List String) : Except ReadError Options := readFrom {} words

end Options

end Gauge
