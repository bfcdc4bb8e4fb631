import LaxJson.Number.Decimal
import LaxJson.Value

/-!
# LaxJson.Literal

What an unquoted text means: a keyword in any letter case, an integer in its one canonical
spelling, a decimal number in range, and otherwise the text itself.
-/

namespace LaxJson
namespace Literal

/-- The canonical spelling of an integer: no plus sign, no leading zero, no negative zero. -/
def spell (n : Int64) : List Char :=
  if n.toInt < 0 then '-' :: Nat.toDigits 10 n.toInt.natAbs else Nat.toDigits 10 n.toInt.natAbs

/-- The integer that a text denotes, in any spelling with at most one sign. -/
def integerValue (text : List Char) : Int :=
  match text with
  | '-' :: digits => -digitsValue digits
  | digits => digitsValue digits

/-- The integer whose canonical spelling the text is. -/
def integer? (text : List Char) : Option Int64 :=
  let n := Int64.ofInt (integerValue text)
  if spell n = text then some n else none

/-- A finite number in decimal notation. -/
def decimal? (text : List Char) : Option Binary64 :=
  match Decimal.ofText? text with
  | some d => if d.toBinary64.isFinite then some d.toBinary64 else none
  | none => none

def startsNumber : List Char → Bool
  | c :: _ => c.isDigit || c = '-'
  | [] => false

def isDecimalMark (c : Char) : Bool := c = '.' || c = 'e' || c = 'E'

/-- The number that a text spells. A point or an exponent makes it a decimal number. -/
def number? (text : List Char) : Option Value :=
  if !startsNumber text then none
  else if text.any isDecimalMark then (decimal? text).map .decimal
  else (integer? text).map .integer

/-- The value of an unquoted text. -/
def value (text : String) : Value :=
  let chars := text.toList
  let folded := String.ofList (chars.map Char.toLower)
  if folded = "null" then .null
  else if folded = "true" then .boolean true
  else if folded = "false" then .boolean false
  else (number? chars).getD (.text text)

end Literal
end LaxJson
