import LaxJson.Position

/-!
# LaxJson.Cursor

The bookkeeping behind a scanner: position, the character read last, and at most one character
that has been put back. `stepBack` undoes the latest `advance`, which is why the line state before
it is kept.
-/

namespace LaxJson

/-- Where reading stands. `before` is the line state ahead of the latest `advance`, `pending` the
character put back, if any, and `ended` says that the latest character was the end mark. -/
structure Cursor where
  index : Nat
  lines : Lines
  before : Lines
  previous : Char
  pending : Option Char
  ended : Bool
  deriving DecidableEq

namespace Cursor

def start : Cursor := ⟨0, .start, .start, endMark, none, false⟩

/-- Records that `c` was handed out; nothing is pending afterwards. -/
def advance (k : Cursor) (c : Char) : Cursor :=
  { index := k.index + 1
    lines := k.lines.advance c
    before := k.lines
    previous := c
    pending := none
    ended := c = endMark }

/-- Undoes the latest `advance`; the character it recorded becomes pending. -/
def stepBack (k : Cursor) : Cursor :=
  { k with index := k.index - 1, lines := k.before, pending := some k.previous, ended := false }

def position (k : Cursor) : Position := ⟨k.index, k.lines.line, k.lines.column⟩

/-- The input is over: the end mark was read and has not been put back. -/
def atEnd (k : Cursor) : Bool := k.ended && k.pending.isNone

theorem advance_previous (k : Cursor) (c : Char) : (k.advance c).previous = c := rfl

theorem advance_pending (k : Cursor) (c : Char) : (k.advance c).pending = none := rfl

/-- Reading the pending character again restores everything that `stepBack` changed. -/
theorem advance_stepBack (k : Cursor) (c : Char) :
    ((k.advance c).stepBack.advance c) = k.advance c := rfl

theorem position_stepBack_advance (k : Cursor) (c : Char) :
    (k.advance c).stepBack.position = k.position := rfl

end Cursor

end LaxJson
