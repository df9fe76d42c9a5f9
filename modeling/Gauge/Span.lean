/-!
# Places in a source text

A position is a byte offset in a file, and a span is a stretch of a file between two positions.
-/

namespace Gauge

/-- A byte offset, and the name of the file that it is in. -/
structure Position where
  offset : Nat
  file : String
deriving DecidableEq

/-- The position of what stands in no file. -/
def Position.null : Position := ⟨0, "<null>"⟩

/-- The bytes from `start` up to `stop`. -/
structure Span where
  start : Position
  stop : Position
deriving DecidableEq

namespace Span

/-- The span of what stands in no file. -/
def null : Span := ⟨.null, .null⟩

/-- The bytes of a file from one offset up to another. -/
def inFile (file : String) (start stop : Nat) : Span := ⟨⟨start, file⟩, ⟨stop, file⟩⟩

/-- From the start of one span to the end of another. -/
def upTo (a b : Span) : Span := ⟨a.start, b.stop⟩

end Span

end Gauge
