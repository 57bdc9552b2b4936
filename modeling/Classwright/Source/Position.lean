/-!
# Source positions
-/

namespace Classwright

/-- A place in a source text: line and byte column, both counted from 1.  A line that is not
positive stands for an unknown place. -/
structure Position where
  /-- The line, counted from 1. -/
  line : Int := 0
  /-- The byte column, counted from 1. -/
  column : Int := 0
  deriving Repr, DecidableEq, Inhabited

namespace Position

/-- The place of something that stands in no source text. -/
def unknown : Position := {}

/-- Whether the place is in a source text. -/
def isKnown (p : Position) : Bool :=
  0 < p.line

/-- Line and column with a colon between them. -/
def text (p : Position) : String :=
  s!"{p.line}:{p.column}"

end Position

end Classwright
