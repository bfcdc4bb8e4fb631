/-!
# LaxJson.Utf8

Decoding of UTF-8 one character at a time. Where the bytes are not UTF-8 the longest prefix that
could still have begun a character counts as one malformed piece, so that every input splits into
characters and malformed pieces.
-/

namespace LaxJson
namespace Utf8

/-- What a lead byte promises: how many bytes follow, the range that the first of them must lie in,
and the bits that the lead byte contributes. -/
structure Lead where
  count : Nat
  low : Nat
  high : Nat
  bits : Nat

/-- The lead bytes of the two, three and four byte forms. After `E0` and `F0` the next byte has a
higher lower bound (no overlong form), after `ED` and `F4` a lower upper bound (no surrogate,
nothing past the last code point). -/
def lead? (b : Nat) : Option Lead :=
  if b < 0xC2 then none
  else if b < 0xE0 then some ⟨1, 0x80, 0xBF, b - 0xC0⟩
  else if b = 0xE0 then some ⟨2, 0xA0, 0xBF, 0⟩
  else if b = 0xED then some ⟨2, 0x80, 0x9F, 0xD⟩
  else if b < 0xF0 then some ⟨2, 0x80, 0xBF, b - 0xE0⟩
  else if b = 0xF0 then some ⟨3, 0x90, 0xBF, 0⟩
  else if b < 0xF4 then some ⟨3, 0x80, 0xBF, b - 0xF0⟩
  else if b = 0xF4 then some ⟨3, 0x80, 0x8F, 4⟩
  else none

/-- Reads `count` continuation bytes, the first one between `low` and `high`. The number in the
answer is `used` plus the bytes that fitted. -/
def continuation (low high bits used : Nat) : Nat → List UInt8 → Option Char × Nat
  | 0, _ => (some (Char.ofNat bits), used)
  | _ + 1, [] => (none, used)
  | count + 1, b :: rest =>
    if low ≤ b.toNat ∧ b.toNat ≤ high then
      continuation 0x80 0xBF (bits * 64 + (b.toNat - 0x80)) (used + 1) count rest
    else
      (none, used)

/-- The first character and its length, or `none` and the length of a malformed piece. -/
def decodeFirst : List UInt8 → Option Char × Nat
  | [] => (none, 0)
  | b :: rest =>
    if b.toNat < 0x80 then
      (some (Char.ofNat b.toNat), 1)
    else
      match lead? b.toNat with
      | some l => continuation l.low l.high l.bits 1 l.count rest
      | none => (none, 1)

theorem le_continuation (low high bits used count : Nat) (bs : List UInt8) :
    used ≤ (continuation low high bits used count bs).2 := by
  induction count generalizing low high bits used bs with
  | zero => simp [continuation]
  | succ n ih =>
    cases bs with
    | nil => simp [continuation]
    | cons b rest =>
      simp only [continuation]
      split
      · exact Nat.le_trans (Nat.le_succ used) (ih ..)
      · exact Nat.le_refl used

theorem continuation_le (low high bits used count : Nat) (bs : List UInt8) :
    (continuation low high bits used count bs).2 ≤ used + bs.length := by
  induction count generalizing low high bits used bs with
  | zero => simp [continuation]
  | succ n ih =>
    cases bs with
    | nil => simp [continuation]
    | cons b rest =>
      simp only [continuation, List.length_cons]
      split
      · refine Nat.le_trans (ih ..) ?_
        omega
      · exact Nat.le_add_right ..

theorem decodeFirst_pos (b : UInt8) (rest : List UInt8) : 0 < (decodeFirst (b :: rest)).2 := by
  simp only [decodeFirst]
  split
  · exact Nat.one_pos
  · split
    · exact le_continuation ..
    · exact Nat.one_pos

theorem decodeFirst_le (bs : List UInt8) : (decodeFirst bs).2 ≤ bs.length := by
  unfold decodeFirst
  split
  · exact Nat.le_refl 0
  · simp only [List.length_cons]
    split
    · exact Nat.le_add_left ..
    · split
      · refine Nat.le_trans (continuation_le ..) ?_
        omega
      · exact Nat.le_add_left ..

end Utf8
end LaxJson
