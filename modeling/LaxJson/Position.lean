/-!
# LaxJson.Position

Where a scanner stands in its input. `Lines` tracks line and column one character at a time; a
carriage return is only counted once the next character is known, so that a return followed by a
line feed is one line break. `Position` is what diagnostics report.
-/

namespace LaxJson

/-- The character that stands for the end of the input. -/
def endMark : Char := '\x00'

/-- A location in the input: characters consumed so far, line from 1, column within the line. -/
structure Position where
  index : Nat
  line : Nat
  column : Nat
  deriving DecidableEq

/-- The suffix of a diagnostic: ` at 7 [character 3 line 2]`. -/
def Position.describe (p : Position) : String :=
  " at " ++ p.index.repr ++ " [character " ++ p.column.repr ++ " line " ++ p.line.repr ++ "]"

/-- Line and column, and whether the last character was a carriage return. -/
structure Lines where
  line : Nat
  column : Nat
  afterReturn : Bool
  deriving DecidableEq

namespace Lines

/-- The first line starts at column 1, every later one at column 0. -/
def start : Lines := ⟨1, 1, false⟩

/-- A line feed ends its line at once; a carriage return ends it when the next character comes,
and a line feed that comes then belongs to the same line break. -/
def advance (l : Lines) (c : Char) : Lines :=
  if l.afterReturn then
    ⟨l.line + 1, if c = '\n' then 0 else 1, c = '\r'⟩
  else if c = '\n' then
    ⟨l.line + 1, 0, false⟩
  else
    ⟨l.line, l.column + 1, c = '\r'⟩

end Lines

end LaxJson
