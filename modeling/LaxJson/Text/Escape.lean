import LaxJson.Text.Visible

/-!
# LaxJson.Text.Escape

Characters and strings as diagnostics show them: visible characters stand for themselves, a few
controls have short forms, everything else is written by its code point, and the quotes in use are
escaped.
-/

namespace LaxJson
namespace Escape

/-- The form `\u{…}` with the code point in lower case hexadecimal. -/
def byCodePoint (c : Char) : List Char :=
  '\\' :: 'u' :: '\x7b' :: (Nat.toDigits 16 c.toNat ++ ['\x7d'])

/-- One character; `quotes` are the ones to escape. -/
def char (quotes : List Char) (c : Char) : List Char :=
  if c = '\x00' then ['\\', '0']
  else if c = '\t' then ['\\', 't']
  else if c = '\r' then ['\\', 'r']
  else if c = '\n' then ['\\', 'n']
  else if c = '\\' then ['\\', '\\']
  else if quotes.contains c then ['\\', c]
  else if isVisible c then [c]
  else byCodePoint c

/-- A character inside a message, safe between quotes of either kind. -/
def inMessage (c : Char) : String := String.ofList (char ['"', '\''] c)

/-- A character between single quotes. -/
def quotedChar (c : Char) : String := "'" ++ String.ofList (char ['\''] c) ++ "'"

/-- A string between double quotes. -/
def quotedString (s : String) : String :=
  "\"" ++ String.ofList (s.toList.flatMap (char ['"'])) ++ "\""

end Escape
end LaxJson
