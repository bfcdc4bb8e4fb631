import LaxJson.Scanner.Basic

/-!
# LaxJson.Scanner.Describe

The texts that show a scanner to a person: its position, and its whole state apart from the source.
-/

namespace LaxJson
namespace Describe

/-- A name and, in braces, its fields. -/
def record (name : String) (fields : List String) : String :=
  name ++ " \x7b " ++ ", ".intercalate fields ++ " \x7d"

def field (name value : String) : String := name ++ ": " ++ value

def flag (b : Bool) : String := if b then "true" else "false"

def lines (l : Lines) : String :=
  record "LineState"
    [field "line" l.line.repr, field "column" l.column.repr, field "after_cr" (flag l.afterReturn)]

def pending : Option Char → String
  | some c => "Some(" ++ Escape.quotedChar c ++ ")"
  | none => "None"

def cursor (k : Cursor) : String :=
  record "Cursor"
    [field "index" k.index.repr, field "lines" (lines k.lines), field "undo" (lines k.before),
      field "previous" (Escape.quotedChar k.previous), field "pending" (pending k.pending),
      field "eof" (flag k.ended)]

def options (o : Options) : String :=
  record "ParserOptions"
    [field "max_depth" o.maxDepth.repr, field "ignore_null_value" (flag o.dropNulls),
      field "reject_duplicate_keys" (flag o.uniqueKeys)]

end Describe

namespace Scanner

variable {σ : Type}

/-- The position, as in a diagnostic. -/
def describe (s : Scanner σ) : String := s.position.describe

/-- The state without the source, which two dots stand for. -/
def dump (s : Scanner σ) : String :=
  Describe.record "Scanner"
    [Describe.field "cursor" (Describe.cursor s.cursor),
      Describe.field "options" (Describe.options s.options),
      Describe.field "depth" s.depth.repr, ".."]

end Scanner

end LaxJson
