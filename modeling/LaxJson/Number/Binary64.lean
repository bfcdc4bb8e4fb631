/-!
# LaxJson.Number.Binary64

IEEE 754 binary64 numbers by their bits, and rounding of an exact quotient to the nearest of them,
a tie going to the even neighbour. The finite magnitudes in increasing order have the bit patterns
`0, 1, 2, …`, so rounding finds a pattern and a carry out of the fraction runs into the exponent by
itself.
-/

namespace LaxJson

structure Binary64 where
  bits : UInt64
  deriving DecidableEq

namespace Binary64

/-- The quotient rounded to the nearest natural number, half to even. -/
def roundHalfEven (num den : Nat) : Nat :=
  let q := num / den
  let r := num % den
  if 2 * r < den then q
  else if den < 2 * r then q + 1
  else q + q % 2

/-- The pattern of positive infinity. -/
def infinityBits : Nat := 0x7FF <<< 52

/-- The pattern of the magnitude nearest to `num / den`. The smallest magnitude is `2 ^ (-1074)`;
measured in it, the quotient is rounded to 53 binary digits, and `shift` counts the digits cut off
at its end. -/
def magnitude (num den : Nat) : Nat :=
  let units := (num <<< 1074) / den
  let shift := if units < 1 <<< 53 then 0 else units.log2 - 52
  min ((shift <<< 52) + roundHalfEven (num <<< 1074) (den <<< shift)) infinityBits

def ofMagnitude (negative : Bool) (pattern : Nat) : Binary64 :=
  ⟨UInt64.ofNat ((if negative then 1 <<< 63 else 0) + pattern)⟩

/-- The number nearest to `± num / den`. -/
def ofRatio (negative : Bool) (num den : Nat) : Binary64 :=
  ofMagnitude negative (magnitude num den)

def ofInt (n : Int) : Binary64 := ofRatio (n < 0) n.natAbs 1

/-- The bits without the sign. -/
def pattern (x : Binary64) : Nat := x.bits.toNat % (1 <<< 63)

def isFinite (x : Binary64) : Bool := x.pattern < infinityBits

def isNaN (x : Binary64) : Bool := infinityBits < x.pattern

/-- Numeric equality: the two zeros are equal and a NaN equals nothing. -/
def same (x y : Binary64) : Bool :=
  !x.isNaN && !y.isNaN && (x.bits == y.bits || (x.pattern == 0 && y.pattern == 0))

end Binary64

end LaxJson
