import LaxJson.Number.Binary64
import LaxJson.Number.Digits

/-!
# LaxJson.Number.Decimal

Decimal number texts. A `Decimal` is the exact number `± coefficient * 10 ^ exponent` that a text
of the form `-? (digits (. digits?)? | . digits) ([eE] [+-]? digits)?` denotes, where a written
exponent counts only up to the digit with which it reaches `exponentLimit`.
-/

namespace LaxJson

structure Decimal where
  negative : Bool
  coefficient : Nat
  exponent : Int
  deriving DecidableEq

namespace Decimal

/-- A sign in front, if there is one, and the rest. -/
def splitSign : List Char → Bool × List Char
  | '-' :: rest => (true, rest)
  | '+' :: rest => (false, rest)
  | rest => (false, rest)

/-- The digits after a point, if there is a point, and the rest. -/
def splitFraction : List Char → List Char × List Char
  | '.' :: rest => (rest.takeWhile Char.isDigit, rest.dropWhile Char.isDigit)
  | rest => ([], rest)

/-- An exponent part that fills all of the text; no text is the exponent zero. -/
def exponent? : List Char → Option Int
  | [] => some 0
  | c :: rest =>
    let (negative, digits) := splitSign rest
    if (c = 'e' ∨ c = 'E') ∧ digits ≠ [] ∧ digits.all Char.isDigit then
      some (if negative then -exponentSize digits else exponentSize digits)
    else
      none

/-- The number without its sign: the part before the exponent needs a digit on one side of the
point. -/
def ofUnsigned? (negative : Bool) (text : List Char) : Option Decimal :=
  let whole := text.takeWhile Char.isDigit
  let (fraction, rest) := splitFraction (text.dropWhile Char.isDigit)
  if whole = [] ∧ fraction = [] then
    none
  else
    match exponent? rest with
    | some e => some ⟨negative, digitsValue (whole ++ fraction), e - fraction.length⟩
    | none => none

def ofText? : List Char → Option Decimal
  | '-' :: rest => ofUnsigned? true rest
  | text => ofUnsigned? false text

/-- The nearest binary64 number. An exponent past 400 exceeds every finite number, and one below
`-400 - log2 coefficient` lies closer to zero than to any other number, so no power of ten beyond
those is ever computed. -/
def toBinary64 (d : Decimal) : Binary64 :=
  if d.coefficient = 0 then
    .ofMagnitude d.negative 0
  else if 400 < d.exponent then
    .ofMagnitude d.negative Binary64.infinityBits
  else if d.exponent < -(400 + d.coefficient.log2 : Nat) then
    .ofMagnitude d.negative 0
  else
    .ofRatio d.negative (d.coefficient * Nat.pow 10 d.exponent.toNat)
      (Nat.pow 10 (-d.exponent).toNat)

end Decimal

end LaxJson
