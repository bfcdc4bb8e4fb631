/-!
# LaxJson.Utf16

Text built from characters and UTF-16 code units in turn. A high surrogate is held until the next
piece shows whether its partner follows; an unpaired surrogate becomes U+FFFD.
-/

namespace LaxJson

/-- U+FFFD, which stands for what cannot be decoded. -/
def replacement : Char := '\uFFFD'

namespace Utf16

def isHigh (u : Nat) : Bool := 0xD800 ≤ u && u ≤ 0xDBFF

def isLow (u : Nat) : Bool := 0xDC00 ≤ u && u ≤ 0xDFFF

/-- The character of a surrogate pair. -/
def pair (high low : Nat) : Char :=
  Char.ofNat (0x10000 + (high - 0xD800) * 0x400 + (low - 0xDC00))

/-- The characters so far, newest first, and a high surrogate that waits for its partner. -/
structure Builder where
  chars : List Char
  held : Option Nat

namespace Builder

def empty : Builder := ⟨[], none⟩

/-- The characters with a held surrogate given up. -/
def settled (b : Builder) : List Char :=
  match b.held with
  | some _ => replacement :: b.chars
  | none => b.chars

def push (b : Builder) (c : Char) : Builder := ⟨c :: b.settled, none⟩

def pushUnit (b : Builder) (u : Nat) : Builder :=
  if isHigh u then
    ⟨b.settled, some u⟩
  else if isLow u then
    match b.held with
    | some high => ⟨pair high u :: b.chars, none⟩
    | none => ⟨replacement :: b.chars, none⟩
  else
    b.push (Char.ofNat u)

def finish (b : Builder) : String := String.ofList b.settled.reverse

end Builder

end Utf16
end LaxJson
