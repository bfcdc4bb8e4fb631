import LaxJson.Utf8
import LaxJson.Utf16

/-!
# LaxJson.Proofs.Utf8.Lossy

Decoding of bytes that may not be UTF-8. `Lossy` describes it by the encodings of characters alone:
bytes are cut into encodings and malformed pieces, a malformed piece being the longest beginning of
an encoding, or one byte if there is none.

* `decodeFirst_encode`, `encode_of_decodeFirst`: the first character is found where its encoding
  stands, and only there.
* `malformed_of_decodeFirst`: what is not decoded is a malformed piece.
* `FindsFirst`: what is relied on of a decoder. `FindsFirst.eq_decodeFirst`: any decoder that does
  so agrees with `decodeFirst` on every slice that is `Sufficient`.
* `lossy_iff`: decoding piece by piece is the one lossy decoding.
-/

namespace LaxJson
namespace Utf8

/-- The bytes could go on to become a character. -/
def Begins (piece : List UInt8) : Prop := ∃ c, piece <+: String.utf8EncodeChar c

/-- No character stands at the start of `piece ++ rest`, and `piece` is all of it that could have
begun one, or a single byte. -/
structure Malformed (piece rest : List UInt8) : Prop where
  undecodable : ∀ c, ¬ String.utf8EncodeChar c <+: piece ++ rest
  ne_nil : piece ≠ []
  begins : piece.length = 1 ∨ Begins piece
  maximal : ∀ longer, longer <+: piece ++ rest → Begins longer → longer.length ≤ piece.length

/-- The lossy decoding of bytes: U+FFFD once for each malformed piece. -/
inductive Lossy : List UInt8 → List Char → Prop where
  | nil : Lossy [] []
  | char (c : Char) {rest : List UInt8} {cs : List Char} :
    Lossy rest cs → Lossy (String.utf8EncodeChar c ++ rest) (c :: cs)
  | malformed {piece rest : List UInt8} {cs : List Char} :
    Malformed piece rest → Lossy rest cs → Lossy (piece ++ rest) (replacement :: cs)

/-- Decodes one character or malformed piece after the other. -/
def decodeLossy : List UInt8 → List Char
  | [] => []
  | b :: rest =>
    let piece := decodeFirst (b :: rest)
    piece.1.getD replacement :: decodeLossy ((b :: rest).drop piece.2)
termination_by bs => bs.length
decreasing_by
  have := decodeFirst_pos b rest
  simp only [List.length_drop, List.length_cons]
  omega

/-! ## Lead bytes -/

theorem lead?_two {b : Nat} (h : 0xC2 ≤ b) (h' : b < 0xE0) :
    lead? b = some ⟨1, 0x80, 0xBF, b - 0xC0⟩ := by
  rw [lead?, if_neg (by omega), if_pos h']

/-- The three byte form: no overlong form after `E0`, no surrogate after `ED`. -/
theorem lead?_three {b : Nat} (h : 0xE0 ≤ b) (h' : b < 0xF0) :
    lead? b =
      some ⟨2, if b = 0xE0 then 0xA0 else 0x80, if b = 0xED then 0x9F else 0xBF, b - 0xE0⟩ := by
  rw [lead?, if_neg (by omega), if_neg (by omega)]
  by_cases h0 : b = 0xE0
  · subst h0
    rfl
  · by_cases hD : b = 0xED
    · subst hD
      rfl
    · rw [if_neg h0, if_neg hD, if_pos h', if_neg h0, if_neg hD]

/-- The four byte form: no overlong form after `F0`, nothing past the last code point after `F4`. -/
theorem lead?_four {b : Nat} (h : 0xF0 ≤ b) (h' : b < 0xF5) :
    lead? b =
      some ⟨3, if b = 0xF0 then 0x90 else 0x80, if b = 0xF4 then 0x8F else 0xBF, b - 0xF0⟩ := by
  rw [lead?, if_neg (by omega), if_neg (by omega), if_neg (by omega), if_neg (by omega),
    if_neg (by omega)]
  by_cases h0 : b = 0xF0
  · subst h0
    rfl
  · by_cases h4 : b = 0xF4
    · subst h4
      rfl
    · rw [if_neg h0, if_pos (by omega), if_neg h0, if_neg h4]

theorem lead?_none {b : Nat} (h : b < 0xC2 ∨ 0xF5 ≤ b) : lead? b = none := by
  rw [lead?]
  by_cases hlow : b < 0xC2
  · rw [if_pos hlow]
  · repeat rw [if_neg (by omega)]

/-! ## Encodings -/

theorem decodeFirst_ascii {b : UInt8} (h : b.toNat < 0x80) (rest : List UInt8) :
    decodeFirst (b :: rest) = (some (Char.ofNat b.toNat), 1) := by
  rw [decodeFirst, if_pos h]

theorem decodeFirst_lead {b : UInt8} {l : Lead} (h : 0x80 ≤ b.toNat) (hl : lead? b.toNat = some l)
    (rest : List UInt8) :
    decodeFirst (b :: rest) = continuation l.low l.high l.bits 1 l.count rest := by
  rw [decodeFirst, if_neg (by omega), hl]

theorem continuation_fits {low high bits used count : Nat} {b : UInt8} {rest : List UInt8}
    (hlow : low ≤ b.toNat) (hhigh : b.toNat ≤ high) :
    continuation low high bits used (count + 1) (b :: rest) =
      continuation 0x80 0xBF (bits * 64 + (b.toNat - 0x80)) (used + 1) count rest := by
  rw [continuation, if_pos ⟨hlow, hhigh⟩]

theorem byte_toNat {n : Nat} (h : n < 256) : (UInt8.ofNat n).toNat = n :=
  UInt8.toNat_ofNat_of_lt' h

theorem decodeFirst_two {v : Nat} (h : 0x7F < v) (h' : v ≤ 0x7FF) (rest : List UInt8) :
    decodeFirst (UInt8.ofNat (v / 64 % 0x20 + 0xC0) :: UInt8.ofNat (v % 0x40 + 0x80) :: rest) =
      (some (Char.ofNat v), 2) := by
  have hb := byte_toNat (n := v / 64 % 0x20 + 0xC0) (by omega)
  have hb1 := byte_toNat (n := v % 0x40 + 0x80) (by omega)
  rw [decodeFirst_lead (by omega) (lead?_two (by omega) (by omega)),
    continuation_fits (by dsimp only; omega) (by dsimp only; omega), continuation, hb, hb1]
  rw [show (v / 64 % 0x20 + 0xC0 - 0xC0) * 64 + (v % 0x40 + 0x80 - 0x80) = v by omega]

theorem decodeFirst_three {v : Nat} (h : 0x7FF < v) (h' : v ≤ 0xFFFF)
    (hv : v < 0xD800 ∨ 0xDFFF < v) (rest : List UInt8) :
    decodeFirst (UInt8.ofNat (v / 4096 % 0x10 + 0xE0) :: UInt8.ofNat (v / 64 % 0x40 + 0x80) ::
      UInt8.ofNat (v % 0x40 + 0x80) :: rest) = (some (Char.ofNat v), 3) := by
  have hb := byte_toNat (n := v / 4096 % 0x10 + 0xE0) (by omega)
  have hb1 := byte_toNat (n := v / 64 % 0x40 + 0x80) (by omega)
  have hb2 := byte_toNat (n := v % 0x40 + 0x80) (by omega)
  rw [decodeFirst_lead (by omega) (lead?_three (by omega) (by omega)),
    continuation_fits (by dsimp only; split <;> omega) (by dsimp only; split <;> omega),
    continuation_fits (by omega) (by omega), continuation, hb, hb1, hb2]
  rw [show ((v / 4096 % 0x10 + 0xE0 - 0xE0) * 64 + (v / 64 % 0x40 + 0x80 - 0x80)) * 64 +
    (v % 0x40 + 0x80 - 0x80) = v by omega]

theorem decodeFirst_four {v : Nat} (h : 0xFFFF < v) (h' : v < 0x110000) (rest : List UInt8) :
    decodeFirst (UInt8.ofNat (v / 262144 % 0x08 + 0xF0) :: UInt8.ofNat (v / 4096 % 0x40 + 0x80) ::
      UInt8.ofNat (v / 64 % 0x40 + 0x80) :: UInt8.ofNat (v % 0x40 + 0x80) :: rest) =
      (some (Char.ofNat v), 4) := by
  have hb := byte_toNat (n := v / 262144 % 0x08 + 0xF0) (by omega)
  have hb1 := byte_toNat (n := v / 4096 % 0x40 + 0x80) (by omega)
  have hb2 := byte_toNat (n := v / 64 % 0x40 + 0x80) (by omega)
  have hb3 := byte_toNat (n := v % 0x40 + 0x80) (by omega)
  rw [decodeFirst_lead (by omega) (lead?_four (by omega) (by omega)),
    continuation_fits (by dsimp only; split <;> omega) (by dsimp only; split <;> omega),
    continuation_fits (by omega) (by omega), continuation_fits (by omega) (by omega),
    continuation, hb, hb1, hb2, hb3]
  rw [show (((v / 262144 % 0x08 + 0xF0 - 0xF0) * 64 + (v / 4096 % 0x40 + 0x80 - 0x80)) * 64 +
    (v / 64 % 0x40 + 0x80 - 0x80)) * 64 + (v % 0x40 + 0x80 - 0x80) = v by omega]

theorem decodeFirst_encode (c : Char) (rest : List UInt8) :
    decodeFirst (String.utf8EncodeChar c ++ rest) =
      (some c, (String.utf8EncodeChar c).length) := by
  have hv : c.val.toNat < 0xD800 ∨ 0xDFFF < c.val.toNat ∧ c.val.toNat < 0x110000 := c.valid
  have hc : Char.ofNat c.val.toNat = c := Char.ofNat_toNat c
  unfold String.utf8EncodeChar
  generalize c.val.toNat = v at hc hv
  subst hc
  by_cases h1 : v ≤ 0x7F
  · simp only [if_pos h1, List.cons_append, List.nil_append]
    have hb := byte_toNat (n := v) (by omega)
    rw [decodeFirst_ascii (by omega), hb]
    rfl
  by_cases h2 : v ≤ 0x7FF
  · simp only [if_neg h1, if_pos h2]
    exact decodeFirst_two (by omega) h2 rest
  by_cases h3 : v ≤ 0xFFFF
  · simp only [if_neg h1, if_neg h2, if_pos h3]
    exact decodeFirst_three (by omega) h3 (by omega) rest
  · simp only [if_neg h1, if_neg h2, if_neg h3]
    exact decodeFirst_four (by omega) (by omega) rest

theorem continuation_some {low high bits used count n : Nat} {bs : List UInt8} {c : Char}
    (h : continuation low high bits used (count + 1) bs = (some c, n)) :
    ∃ b rest, bs = b :: rest ∧ low ≤ b.toNat ∧ b.toNat ≤ high ∧
      continuation 0x80 0xBF (bits * 64 + (b.toNat - 0x80)) (used + 1) count rest =
        (some c, n) := by
  cases bs with
  | nil => cases h
  | cons b rest =>
    rw [continuation] at h
    split at h
    · rename_i hb
      exact ⟨b, rest, rfl, hb.1, hb.2, h⟩
    · cases h

theorem val_ofNat {v : Nat} (h : v.isValidChar) : (Char.ofNat v).val.toNat = v := by
  rw [Char.ofNat, dif_pos h]
  rfl

theorem byte_eq {b : UInt8} {n : Nat} (h : n = b.toNat) : UInt8.ofNat n = b := by
  rw [h, UInt8.ofNat_toNat]

theorem encode_one {b : UInt8} (h : b.toNat < 0x80) :
    String.utf8EncodeChar (Char.ofNat b.toNat) = [b] := by
  rw [String.utf8EncodeChar, val_ofNat (.inl (by omega)), if_pos (by omega), byte_eq rfl]

theorem encode_two {b b1 : UInt8} (h : 0xC2 ≤ b.toNat ∧ b.toNat < 0xE0)
    (h1 : 0x80 ≤ b1.toNat ∧ b1.toNat ≤ 0xBF) :
    String.utf8EncodeChar (Char.ofNat ((b.toNat - 0xC0) * 64 + (b1.toNat - 0x80))) = [b, b1] := by
  rw [String.utf8EncodeChar, val_ofNat (.inl (by omega)), if_neg (by omega), if_pos (by omega),
    byte_eq (b := b) (by omega), byte_eq (b := b1) (by omega)]

theorem encode_three {b b1 b2 : UInt8} (h : 0xE0 ≤ b.toNat ∧ b.toNat < 0xF0)
    (h1 : (if b.toNat = 0xE0 then 0xA0 else 0x80) ≤ b1.toNat ∧
      b1.toNat ≤ (if b.toNat = 0xED then 0x9F else 0xBF))
    (h2 : 0x80 ≤ b2.toNat ∧ b2.toNat ≤ 0xBF) :
    String.utf8EncodeChar (Char.ofNat
      (((b.toNat - 0xE0) * 64 + (b1.toNat - 0x80)) * 64 + (b2.toNat - 0x80))) = [b, b1, b2] := by
  obtain ⟨hlow, hhigh⟩ := h1
  have hv : (((b.toNat - 0xE0) * 64 + (b1.toNat - 0x80)) * 64 + (b2.toNat - 0x80)).isValidChar := by
    unfold Nat.isValidChar
    split at hlow <;> split at hhigh <;> omega
  have h1 : 0x80 ≤ b1.toNat ∧ b1.toNat ≤ 0xBF ∧ (b.toNat = 0xE0 → 0xA0 ≤ b1.toNat) := by
    split at hlow <;> split at hhigh <;> omega
  rw [String.utf8EncodeChar, val_ofNat hv, if_neg (by omega), if_neg (by omega), if_pos (by omega),
    byte_eq (b := b) (by omega), byte_eq (b := b1) (by omega), byte_eq (b := b2) (by omega)]

theorem encode_four {b b1 b2 b3 : UInt8} (h : 0xF0 ≤ b.toNat ∧ b.toNat < 0xF5)
    (h1 : (if b.toNat = 0xF0 then 0x90 else 0x80) ≤ b1.toNat ∧
      b1.toNat ≤ (if b.toNat = 0xF4 then 0x8F else 0xBF))
    (h2 : 0x80 ≤ b2.toNat ∧ b2.toNat ≤ 0xBF) (h3 : 0x80 ≤ b3.toNat ∧ b3.toNat ≤ 0xBF) :
    String.utf8EncodeChar (Char.ofNat
      ((((b.toNat - 0xF0) * 64 + (b1.toNat - 0x80)) * 64 + (b2.toNat - 0x80)) * 64 +
        (b3.toNat - 0x80))) = [b, b1, b2, b3] := by
  obtain ⟨hlow, hhigh⟩ := h1
  have h1 : 0x80 ≤ b1.toNat ∧ b1.toNat ≤ 0xBF ∧ (b.toNat = 0xF0 → 0x90 ≤ b1.toNat) ∧
      (b.toNat = 0xF4 → b1.toNat ≤ 0x8F) := by
    split at hlow <;> split at hhigh <;> omega
  rw [String.utf8EncodeChar, val_ofNat (.inr (by omega)), if_neg (by omega), if_neg (by omega),
    if_neg (by omega), byte_eq (b := b) (by omega), byte_eq (b := b1) (by omega),
    byte_eq (b := b2) (by omega), byte_eq (b := b3) (by omega)]

/-- What is decoded is the encoding of the character, at the start. -/
theorem encode_of_decodeFirst {bs : List UInt8} {c : Char} {n : Nat}
    (h : decodeFirst bs = (some c, n)) : bs.take n = String.utf8EncodeChar c := by
  cases bs with
  | nil => cases h
  | cons b rest =>
    by_cases hascii : b.toNat < 0x80
    · rw [decodeFirst_ascii hascii] at h
      cases h
      exact (encode_one hascii).symm
    by_cases hnone : b.toNat < 0xC2 ∨ 0xF5 ≤ b.toNat
    · rw [decodeFirst, if_neg hascii, lead?_none hnone] at h
      cases h
    by_cases htwo : b.toNat < 0xE0
    · rw [decodeFirst_lead (by omega) (lead?_two (by omega) htwo)] at h
      obtain ⟨b1, rest1, rfl, hlow, hhigh, h⟩ := continuation_some h
      obtain ⟨hc, rfl⟩ := Prod.mk.inj h
      rw [← Option.some.inj hc]
      exact (encode_two (by omega) ⟨hlow, hhigh⟩).symm
    by_cases hthree : b.toNat < 0xF0
    · rw [decodeFirst_lead (by omega) (lead?_three (by omega) hthree)] at h
      obtain ⟨b1, rest1, rfl, hlow, hhigh, h⟩ := continuation_some h
      obtain ⟨b2, rest2, rfl, hlow2, hhigh2, h⟩ := continuation_some h
      obtain ⟨hc, rfl⟩ := Prod.mk.inj h
      rw [← Option.some.inj hc]
      exact (encode_three (by omega) ⟨hlow, hhigh⟩ ⟨hlow2, hhigh2⟩).symm
    · rw [decodeFirst_lead (by omega) (lead?_four (by omega) (by omega))] at h
      obtain ⟨b1, rest1, rfl, hlow, hhigh, h⟩ := continuation_some h
      obtain ⟨b2, rest2, rfl, hlow2, hhigh2, h⟩ := continuation_some h
      obtain ⟨b3, rest3, rfl, hlow3, hhigh3, h⟩ := continuation_some h
      obtain ⟨hc, rfl⟩ := Prod.mk.inj h
      rw [← Option.some.inj hc]
      exact (encode_four (by omega) ⟨hlow, hhigh⟩ ⟨hlow2, hhigh2⟩ ⟨hlow3, hhigh3⟩).symm

/-! ## Malformed pieces -/

theorem lead?_bounds {b : Nat} {l : Lead} (h : lead? b = some l) :
    l.low ≤ l.high ∧ l.high ≤ 0xBF ∧ l.count ≤ 3 := by
  by_cases hnone : b < 0xC2 ∨ 0xF5 ≤ b
  · rw [lead?_none hnone] at h
    cases h
  by_cases htwo : b < 0xE0
  · rw [lead?_two (by omega) htwo] at h
    cases h
    dsimp only
    omega
  by_cases hthree : b < 0xF0
  · rw [lead?_three (by omega) hthree] at h
    cases h
    dsimp only
    split <;> split <;> omega
  · rw [lead?_four (by omega) (by omega)] at h
    cases h
    dsimp only
    split <;> split <;> omega

/-- Where a piece ends shows in the byte after it: what follows that byte does not matter. -/
theorem continuation_none_local {low high bits used count n : Nat} {near far far' : List UInt8}
    (h : continuation low high bits used count (near ++ far) = (none, n))
    (hn : n < used + near.length) :
    continuation low high bits used count (near ++ far') = (none, n) := by
  induction count generalizing low high bits used near with
  | zero => cases h
  | succ count ih =>
    cases near with
    | nil =>
      have := le_continuation low high bits used (count + 1) ([] ++ far)
      rw [h] at this
      simp only [List.length_nil] at hn
      omega
    | cons b near =>
      rw [List.cons_append, continuation] at h ⊢
      rw [List.length_cons] at hn
      by_cases hb : low ≤ b.toNat ∧ b.toNat ≤ high
      · rw [if_pos hb] at h ⊢
        exact ih h (by omega)
      · rw [if_neg hb] at h ⊢
        exact h

theorem decodeFirst_none_local {n : Nat} {near far : List UInt8} (far' : List UInt8)
    (h : decodeFirst (near ++ far) = (none, n)) (hn : n < near.length) :
    decodeFirst (near ++ far') = (none, n) := by
  cases near with
  | nil => cases hn
  | cons b near =>
    rw [List.cons_append, decodeFirst] at h ⊢
    by_cases hascii : b.toNat < 0x80
    · rw [if_pos hascii] at h
      cases h
    · rw [if_neg hascii] at h ⊢
      cases hl : lead? b.toNat with
      | none =>
        rw [hl] at h
        exact h
      | some l =>
        rw [hl] at h
        rw [List.length_cons] at hn
        exact continuation_none_local h (by omega)

theorem continuation_filled {low high : Nat} (bits used count : Nat) (hlow : low ≤ high)
    (hhigh : high ≤ 0xBF) :
    ∃ fill c, continuation low high bits used count fill = (some c, used + fill.length) := by
  induction count generalizing low high bits used with
  | zero => exact ⟨[], _, rfl⟩
  | succ count ih =>
    have hb := byte_toNat (n := low) (by omega)
    obtain ⟨fill, c, h⟩ := ih (bits * 64 + (low - 0x80)) (used + 1)
      (show 0x80 ≤ 0xBF by omega) (Nat.le_refl 0xBF)
    refine ⟨UInt8.ofNat low :: fill, c, ?_⟩
    rw [continuation_fits (by omega) (by omega), hb, h, List.length_cons, Nat.add_right_comm,
      Nat.add_assoc]

/-- The bytes that fitted can be completed to a character. -/
theorem continuation_completes {low high bits used count k : Nat} {bs : List UInt8}
    (hlow : low ≤ high) (hhigh : high ≤ 0xBF)
    (h : continuation low high bits used count bs = (none, used + k)) :
    ∃ fill c, continuation low high bits used count (bs.take k ++ fill) =
      (some c, used + (bs.take k ++ fill).length) := by
  induction count generalizing low high bits used k bs with
  | zero => cases h
  | succ count ih =>
    cases bs with
    | nil => simpa using continuation_filled bits used (count + 1) hlow hhigh
    | cons b rest =>
      by_cases hb : low ≤ b.toNat ∧ b.toNat ≤ high
      · rw [continuation_fits hb.1 hb.2] at h
        have hk := le_continuation 0x80 0xBF (bits * 64 + (b.toNat - 0x80)) (used + 1) count rest
        rw [h] at hk
        obtain ⟨k, rfl⟩ : ∃ k', k = k' + 1 := ⟨k - 1, by dsimp only at hk; omega⟩
        rw [← Nat.add_assoc, Nat.add_right_comm] at h
        obtain ⟨fill, c, hc⟩ := ih (by omega) (Nat.le_refl 0xBF) h
        refine ⟨fill, c, ?_⟩
        rw [List.take_succ_cons, List.cons_append, continuation_fits hb.1 hb.2, hc,
          List.length_cons]
        congr 1
        omega
      · rw [continuation, if_neg hb] at h
        have hk : k = 0 := by
          have := (Prod.mk.inj h).2
          omega
        subst hk
        simpa using continuation_filled bits used (count + 1) hlow hhigh

theorem begins_of_decodeFirst {bs : List UInt8} {n : Nat} (h : decodeFirst bs = (none, n))
    (hn : 1 < n) : Begins (bs.take n) := by
  cases bs with
  | nil =>
    cases h
    omega
  | cons b rest =>
    by_cases hascii : b.toNat < 0x80
    · rw [decodeFirst_ascii hascii] at h
      cases h
    cases hl : lead? b.toNat with
    | none =>
      rw [decodeFirst, if_neg hascii, hl] at h
      cases h
      omega
    | some l =>
      rw [decodeFirst_lead (by omega) hl] at h
      obtain ⟨hlow, hhigh, -⟩ := lead?_bounds hl
      obtain ⟨k, rfl⟩ : ∃ k, n = 1 + k := ⟨n - 1, by omega⟩
      obtain ⟨fill, c, hc⟩ := continuation_completes hlow hhigh h
      rw [← decodeFirst_lead (by omega) hl, Nat.add_comm, ← List.length_cons] at hc
      have hall := encode_of_decodeFirst hc
      rw [List.take_length] at hall
      refine ⟨c, fill, ?_⟩
      rw [← hall, Nat.add_comm, List.take_succ_cons, List.cons_append]

theorem decodeFirst_pos_of_ne_nil {bs : List UInt8} (h : bs ≠ []) : 0 < (decodeFirst bs).2 := by
  obtain ⟨b, rest, rfl⟩ := List.exists_cons_of_ne_nil h
  exact decodeFirst_pos b rest

theorem malformed_of_decodeFirst {bs : List UInt8} {n : Nat} (hne : bs ≠ [])
    (h : decodeFirst bs = (none, n)) : Malformed (bs.take n) (bs.drop n) := by
  have hle := decodeFirst_le bs
  have hpos := decodeFirst_pos_of_ne_nil hne
  rw [h] at hle hpos
  have hlength : (bs.take n).length = n := by rw [List.length_take]; omega
  constructor
  · rintro c ⟨rest, hc⟩
    rw [List.take_append_drop] at hc
    rw [← hc, decodeFirst_encode] at h
    cases h
  · intro hnil
    rw [hnil] at hlength
    exact Nat.ne_of_lt hpos hlength
  · by_cases hn : 1 < n
    · exact .inr (begins_of_decodeFirst h hn)
    · exact .inl (by omega)
  · rintro longer ⟨far, hfar⟩ ⟨c, far', hfar'⟩
    rw [List.take_append_drop] at hfar
    rw [hlength]
    apply Nat.le_of_not_lt
    intro hlt
    rw [← hfar] at h
    have hnone := decodeFirst_none_local far' h hlt
    have hsome := decodeFirst_encode c []
    rw [List.append_nil, ← hfar', hnone] at hsome
    cases hsome

theorem Malformed.length_le {piece rest piece' rest' : List UInt8} (h : Malformed piece rest)
    (h' : Malformed piece' rest') (heq : piece ++ rest = piece' ++ rest') :
    piece.length ≤ piece'.length := by
  rcases h.begins with hone | hbegins
  · rw [hone]
    exact List.length_pos_iff.mpr h'.ne_nil
  · exact h'.maximal piece (heq ▸ List.prefix_append piece rest) hbegins

theorem decodeFirst_malformed {piece rest : List UInt8} (h : Malformed piece rest) :
    decodeFirst (piece ++ rest) = (none, piece.length) := by
  rcases hd : decodeFirst (piece ++ rest) with ⟨_ | c, n⟩
  · have hne : piece ++ rest ≠ [] := by simp [h.ne_nil]
    have hm := malformed_of_decodeFirst hne hd
    have heq := List.take_append_drop n (piece ++ rest)
    have hlength := Nat.le_antisymm (hm.length_le h heq) (h.length_le hm heq.symm)
    have hle := decodeFirst_le (piece ++ rest)
    rw [hd] at hle
    rw [List.length_take, Nat.min_eq_left hle] at hlength
    exact congrArg (Prod.mk none) hlength
  · have htake := encode_of_decodeFirst hd
    exact absurd (htake ▸ List.take_prefix n (piece ++ rest)) (h.undecodable c)

/-! ## Bytes beyond a piece -/

theorem continuation_le_count (low high bits used count : Nat) (bs : List UInt8) :
    (continuation low high bits used count bs).2 ≤ used + count := by
  induction count generalizing low high bits used bs with
  | zero => exact Nat.le_refl _
  | succ count ih =>
    cases bs with
    | nil => exact Nat.le_add_right _ _
    | cons b rest =>
      rw [continuation]
      split
      · exact Nat.le_trans (ih ..) (by omega)
      · exact Nat.le_add_right _ _

/-- A byte after the piece ends it just as the end of the bytes does. -/
theorem continuation_take {low high bits used count m : Nat} {bs : List UInt8}
    (h : (continuation low high bits used count bs).2 ≤ used + m) :
    continuation low high bits used count (bs.take m) =
      continuation low high bits used count bs := by
  induction count generalizing low high bits used m bs with
  | zero => rfl
  | succ count ih =>
    cases bs with
    | nil => rw [List.take_nil]
    | cons b rest =>
      rw [continuation] at h ⊢
      by_cases hb : low ≤ b.toNat ∧ b.toNat ≤ high
      · rw [if_pos hb] at h ⊢
        have hle := le_continuation 0x80 0xBF (bits * 64 + (b.toNat - 0x80)) (used + 1) count rest
        obtain ⟨m, rfl⟩ : ∃ m', m = m' + 1 := ⟨m - 1, by omega⟩
        rw [List.take_succ_cons, continuation, if_pos hb]
        exact ih (by omega)
      · rw [if_neg hb]
        cases m with
        | zero => rfl
        | succ m => rw [List.take_succ_cons, continuation, if_neg hb]

/-- What follows the first piece does not matter to it. -/
theorem decodeFirst_take {m : Nat} {bs : List UInt8} (h : (decodeFirst bs).2 ≤ m) :
    decodeFirst (bs.take m) = decodeFirst bs := by
  cases bs with
  | nil => rw [List.take_nil]
  | cons b rest =>
    have hpos := decodeFirst_pos b rest
    obtain ⟨m, rfl⟩ : ∃ m', m = m' + 1 := ⟨m - 1, by omega⟩
    rw [List.take_succ_cons]
    rw [decodeFirst] at h ⊢
    rw [decodeFirst]
    by_cases hascii : b.toNat < 0x80
    · rw [if_pos hascii, if_pos hascii]
    · rw [if_neg hascii] at h
      rw [if_neg hascii, if_neg hascii]
      cases hl : lead? b.toNat with
      | none => rfl
      | some l =>
        rw [hl] at h
        exact continuation_take (by simpa only [Nat.add_comm] using h)

theorem decodeFirst_le_four (bs : List UInt8) : (decodeFirst bs).2 ≤ 4 := by
  cases bs with
  | nil => exact Nat.zero_le _
  | cons b rest =>
    rw [decodeFirst]
    split
    · exact (by decide : 1 ≤ 4)
    cases hl : lead? b.toNat with
    | none => exact (by decide : 1 ≤ 4)
    | some l =>
      obtain ⟨-, -, hcount⟩ := lead?_bounds hl
      exact Nat.le_trans (continuation_le_count ..) (by omega)

theorem decodeFirst_take_four (bs : List UInt8) : decodeFirst (bs.take 4) = decodeFirst bs :=
  decodeFirst_take (decodeFirst_le_four bs)

/-! ## Other decoders -/

section Decoders

variable {decode : List UInt8 → Option Char × Nat} {slice ahead : List UInt8}

/-- The slice holds the first of the bytes ahead: four of them, or all. -/
structure Sufficient (slice ahead : List UInt8) : Prop where
  first : slice <+: ahead
  enough : 4 ≤ slice.length ∨ slice = ahead

/-- In a sufficient slice the decoder finds the first character of the bytes ahead, with its length,
or the length of the malformed piece that stands there. Nothing is said of other slices. -/
structure FindsFirst (decode : List UInt8 → Option Char × Nat) : Prop where
  char : ∀ {slice ahead : List UInt8} (c : Char), Sufficient slice ahead →
    String.utf8EncodeChar c <+: ahead → decode slice = (some c, (String.utf8EncodeChar c).length)
  malformed : ∀ {slice piece rest : List UInt8}, Sufficient slice (piece ++ rest) →
    Malformed piece rest → decode slice = (none, piece.length)

theorem Sufficient.decodeFirst_eq (h : Sufficient slice ahead) :
    decodeFirst slice = decodeFirst ahead := by
  obtain ⟨⟨later, rfl⟩, hfour | hall⟩ := h
  · rw [← decodeFirst_take_four (slice ++ later), List.take_append_of_le_length hfour,
      decodeFirst_take_four]
  · rw [← hall]

theorem Sufficient.eq_nil_iff (h : Sufficient slice ahead) : slice = [] ↔ ahead = [] := by
  obtain ⟨⟨later, rfl⟩, hfour | hall⟩ := h
  · have hne : slice ≠ [] := by
      rintro rfl
      cases hfour
    exact iff_of_false hne (List.append_ne_nil_of_left_ne_nil hne later)
  · rw [← hall]

theorem findsFirst_decodeFirst : FindsFirst decodeFirst where
  char := by
    rintro slice _ c hslice ⟨rest, rfl⟩
    rw [hslice.decodeFirst_eq, decodeFirst_encode]
  malformed := by
    intro slice piece rest hslice hmalformed
    rw [hslice.decodeFirst_eq, decodeFirst_malformed hmalformed]

/-- There is no other such decoder, as far as sufficient slices go. -/
theorem FindsFirst.eq_decodeFirst (h : FindsFirst decode) (hslice : Sufficient slice ahead)
    (hne : ahead ≠ []) : decode slice = decodeFirst ahead := by
  have hle := decodeFirst_le ahead
  rcases hd : decodeFirst ahead with ⟨_ | c, n⟩ <;> rw [hd] at hle
  · have hmalformed := malformed_of_decodeFirst hne hd
    have hsplit := List.take_append_drop n ahead
    rw [h.malformed (hsplit.symm ▸ hslice) hmalformed, List.length_take_of_le hle]
  · have hencode := encode_of_decodeFirst hd
    rw [h.char c hslice (hencode ▸ List.take_prefix n ahead), ← hencode,
      List.length_take_of_le hle]

end Decoders

/-! ## Whole inputs -/

theorem decodeLossy_eq {bs : List UInt8} (h : bs ≠ []) :
    decodeLossy bs = (decodeFirst bs).1.getD replacement ::
      decodeLossy (bs.drop (decodeFirst bs).2) := by
  obtain ⟨b, rest, rfl⟩ := List.exists_cons_of_ne_nil h
  rw [decodeLossy]

theorem lossy_decodeLossy (bs : List UInt8) : Lossy bs (decodeLossy bs) := by
  fun_induction decodeLossy bs with
  | case1 => exact .nil
  | case2 b rest piece ih =>
    have hsplit := List.take_append_drop piece.2 (b :: rest)
    rcases hd : piece with ⟨_ | c, n⟩ <;> rw [hd] at ih hsplit
    · have hm := Lossy.malformed (malformed_of_decodeFirst (List.cons_ne_nil b rest) hd) ih
      rwa [hsplit] at hm
    · have hc := Lossy.char c ih
      rwa [← encode_of_decodeFirst hd, hsplit] at hc

/-- Decoding one piece after the other is the one lossy decoding of the bytes. -/
theorem lossy_iff (bs : List UInt8) (cs : List Char) : Lossy bs cs ↔ cs = decodeLossy bs := by
  constructor
  · intro h
    induction h with
    | nil => rw [decodeLossy]
    | char c _ ih =>
      rw [decodeLossy_eq (by simp [String.utf8EncodeChar_ne_nil]), decodeFirst_encode, ih,
        Option.getD_some, List.drop_left]
    | malformed hm _ ih =>
      rw [decodeLossy_eq (by simp [hm.ne_nil]), decodeFirst_malformed hm, ih, Option.getD_none,
        List.drop_left]
  · intro h
    rw [h]
    exact lossy_decodeLossy bs

end Utf8
end LaxJson
