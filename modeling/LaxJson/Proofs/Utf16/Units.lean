import LaxJson.Utf16

/-!
# LaxJson.Proofs.Utf16.Units

Text as UTF-16 code units. `units` encodes a character, `decode` reads units back with U+FFFD for
each surrogate that has no partner.

* `push_eq`: a builder takes a character in as its units, one by one.
* `finish_pushUnits`: what a builder makes of units is their decoding.
* `decode_units`: characters encoded and decoded are the same characters.
-/

namespace LaxJson
namespace Utf16

/-- The encoding of a character: one unit, or a surrogate pair. -/
def units (c : Char) : List Nat :=
  if c.toNat < 0x10000 then [c.toNat]
  else [0xD800 + (c.toNat - 0x10000) / 0x400, 0xDC00 + (c.toNat - 0x10000) % 0x400]

/-- A unit that is not half of a pair. -/
def alone (u : Nat) : Char := if isHigh u || isLow u then replacement else Char.ofNat u

/-- The text that units encode, U+FFFD in the place of each unpaired surrogate. -/
def decode : List Nat → List Char
  | [] => []
  | [u] => [alone u]
  | u :: v :: rest =>
    if isHigh u && isLow v then pair u v :: decode rest else alone u :: decode (v :: rest)

theorem isHigh_iff (u : Nat) : isHigh u = true ↔ 0xD800 ≤ u ∧ u ≤ 0xDBFF := by
  simp only [isHigh, Bool.and_eq_true, decide_eq_true_eq]

theorem isLow_iff (u : Nat) : isLow u = true ↔ 0xDC00 ≤ u ∧ u ≤ 0xDFFF := by
  simp only [isLow, Bool.and_eq_true, decide_eq_true_eq]

theorem isLow_of_isHigh {u : Nat} (h : isHigh u = true) : isLow u = false := by
  rw [isHigh_iff] at h
  rw [Bool.eq_false_iff, ne_eq, isLow_iff]
  omega

theorem isHigh_of_isLow {u : Nat} (h : isLow u = true) : isHigh u = false := by
  rw [isLow_iff] at h
  rw [Bool.eq_false_iff, ne_eq, isHigh_iff]
  omega

theorem decode_pair {u v : Nat} (hu : isHigh u = true) (hv : isLow v = true) (us : List Nat) :
    decode (u :: v :: us) = pair u v :: decode us := by
  rw [decode, hu, hv]
  rfl

theorem decode_of_not_high {u : Nat} (hu : isHigh u = false) (us : List Nat) :
    decode (u :: us) = alone u :: decode us := by
  cases us with
  | nil => rfl
  | cons v rest =>
    rw [decode, hu]
    rfl

theorem decode_of_not_low {u v : Nat} (hv : isLow v = false) (us : List Nat) :
    decode (u :: v :: us) = alone u :: decode (v :: us) := by
  rw [decode, hv, Bool.and_false]
  rfl

theorem alone_of_isHigh {u : Nat} (h : isHigh u = true) : alone u = replacement := by
  rw [alone, h]
  rfl

theorem alone_of_isLow {u : Nat} (h : isLow u = true) : alone u = replacement := by
  rw [alone, h, Bool.or_true]
  rfl

theorem alone_of_char {u : Nat} (hhigh : isHigh u = false) (hlow : isLow u = false) :
    alone u = Char.ofNat u := by
  rw [alone, hhigh, hlow]
  rfl

namespace Builder

theorem pushUnit_high {u : Nat} (h : isHigh u = true) (b : Builder) :
    b.pushUnit u = ⟨b.settled, some u⟩ := by
  rw [pushUnit, if_pos h]

theorem pushUnit_low {u v : Nat} {b : Builder} (h : isLow u = true) (hv : b.held = some v) :
    b.pushUnit u = ⟨pair v u :: b.chars, none⟩ := by
  rw [pushUnit, isHigh_of_isLow h, h, hv]
  rfl

theorem pushUnit_stray {u : Nat} {b : Builder} (h : isLow u = true) (hv : b.held = none) :
    b.pushUnit u = ⟨replacement :: b.chars, none⟩ := by
  rw [pushUnit, isHigh_of_isLow h, h, hv]
  rfl

theorem pushUnit_char {u : Nat} (hhigh : isHigh u = false) (hlow : isLow u = false) (b : Builder) :
    b.pushUnit u = b.push (Char.ofNat u) := by
  rw [pushUnit, hhigh, hlow]
  rfl

/-- Only a high surrogate is held. -/
def HoldsHigh (b : Builder) : Prop := ∀ u, b.held = some u → isHigh u = true

theorem empty_holdsHigh : empty.HoldsHigh := by
  intro u hu
  cases hu

theorem pushUnit_holdsHigh (b : Builder) (u : Nat) : (b.pushUnit u).HoldsHigh := by
  intro v hv
  by_cases hhigh : isHigh u = true
  · rw [pushUnit_high hhigh] at hv
    cases hv
    exact hhigh
  rw [Bool.not_eq_true] at hhigh
  by_cases hlow : isLow u = true
  · cases hh : b.held with
    | none =>
      rw [pushUnit_stray hlow hh] at hv
      cases hv
    | some w =>
      rw [pushUnit_low hlow hh] at hv
      cases hv
  · rw [pushUnit_char hhigh (Bool.not_eq_true _ ▸ hlow)] at hv
    cases hv

/-- Before a unit that is no low surrogate, what is held is given up. -/
theorem settled_decode {b : Builder} (hb : b.HoldsHigh) {u : Nat} (hu : isLow u = false)
    (us : List Nat) :
    b.chars.reverse ++ decode (b.held.toList ++ u :: us) =
      b.settled.reverse ++ decode (u :: us) := by
  unfold settled
  cases hh : b.held with
  | none => rfl
  | some v =>
    rw [Option.toList_some, List.singleton_append, decode_of_not_low hu, alone_of_isHigh (hb v hh),
      List.reverse_cons, List.append_assoc]
    rfl

theorem settled_pushUnits (us : List Nat) {b : Builder} (hb : b.HoldsHigh) :
    (us.foldl pushUnit b).settled.reverse = b.chars.reverse ++ decode (b.held.toList ++ us) := by
  induction us generalizing b with
  | nil =>
    rw [List.foldl_nil, List.append_nil, settled]
    cases hh : b.held with
    | none => simp only [Option.toList_none, decode, List.append_nil]
    | some v =>
      rw [Option.toList_some, decode, alone_of_isHigh (hb v hh), List.reverse_cons]
  | cons u us ih =>
    rw [List.foldl_cons, ih (pushUnit_holdsHigh b u)]
    by_cases hhigh : isHigh u = true
    · rw [settled_decode hb (isLow_of_isHigh hhigh), pushUnit_high hhigh]
      rfl
    rw [Bool.not_eq_true] at hhigh
    by_cases hlow : isLow u = true
    · cases hh : b.held with
      | none =>
        rw [pushUnit_stray hlow hh, Option.toList_none, List.nil_append, List.nil_append,
          decode_of_not_high hhigh, alone_of_isLow hlow, List.reverse_cons, List.append_assoc]
        rfl
      | some v =>
        rw [pushUnit_low hlow hh, Option.toList_some, List.singleton_append,
          decode_pair (hb v hh) hlow, List.reverse_cons, List.append_assoc]
        rfl
    · rw [Bool.not_eq_true] at hlow
      rw [settled_decode hb hlow, decode_of_not_high hhigh, alone_of_char hhigh hlow,
        pushUnit_char hhigh hlow, push, List.reverse_cons, List.append_assoc]
      rfl

/-- What is built from units is their decoding. -/
theorem finish_pushUnits (us : List Nat) :
    (us.foldl pushUnit empty).finish = String.ofList (decode us) := by
  rw [finish, settled_pushUnits us empty_holdsHigh]
  rfl

/-- A character goes in as its units. -/
theorem push_eq (b : Builder) (c : Char) : b.push c = (units c).foldl pushUnit b := by
  have hvalid : c.toNat < 0xD800 ∨ 0xDFFF < c.toNat ∧ c.toNat < 0x110000 := c.valid
  unfold units
  by_cases hc : c.toNat < 0x10000
  · have hhigh : isHigh c.toNat = false := by
      rw [Bool.eq_false_iff, ne_eq, isHigh_iff]
      omega
    have hlow : isLow c.toNat = false := by
      rw [Bool.eq_false_iff, ne_eq, isLow_iff]
      omega
    rw [if_pos hc, List.foldl_cons, List.foldl_nil, pushUnit_char hhigh hlow, Char.ofNat_toNat]
  · have hhigh : isHigh (0xD800 + (c.toNat - 0x10000) / 0x400) = true := by
      rw [isHigh_iff]
      omega
    have hlow : isLow (0xDC00 + (c.toNat - 0x10000) % 0x400) = true := by
      rw [isLow_iff]
      omega
    have hpair : pair (0xD800 + (c.toNat - 0x10000) / 0x400)
        (0xDC00 + (c.toNat - 0x10000) % 0x400) = c := by
      rw [pair, show 0x10000 + (0xD800 + (c.toNat - 0x10000) / 0x400 - 0xD800) * 0x400 +
        (0xDC00 + (c.toNat - 0x10000) % 0x400 - 0xDC00) = c.toNat by omega, Char.ofNat_toNat]
    rw [if_neg hc, List.foldl_cons, List.foldl_cons, List.foldl_nil, pushUnit_high hhigh,
      pushUnit_low hlow rfl, hpair, push]

end Builder

/-- A character's own units decode to it, whatever comes after them. -/
theorem decode_units_append (c : Char) (us : List Nat) :
    decode (units c ++ us) = c :: decode us := by
  have hunits := Builder.settled_pushUnits (units c ++ us) Builder.empty_holdsHigh
  rw [List.foldl_append, ← Builder.push_eq,
    Builder.settled_pushUnits us (b := Builder.empty.push c) (by rintro u ⟨⟩)] at hunits
  exact hunits.symm

theorem decode_units (text : List Char) : decode (text.flatMap units) = text := by
  induction text with
  | nil => rfl
  | cons c text ih => rw [List.flatMap_cons, decode_units_append, ih]

end Utf16
end LaxJson
