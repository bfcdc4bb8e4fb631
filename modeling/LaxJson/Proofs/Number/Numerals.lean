import LaxJson.Number.Decimal
import LaxJson.Proofs.Number.Rounding
import Mathlib.Algebra.Order.Field.Power
import Mathlib.Data.List.TakeWhile

/-!
# LaxJson.Proofs.Number.Numerals

Numbers in decimal notation. A `Numeral` holds the pieces of such a text, `Spells` is the grammar,
and `denoted` the exact number.

* `ofText?_eq_some`: what is taken for a numeral is what the grammar has.
* `Decimal.nearest_toBinary64`: a decimal number is rounded to the nearest binary64 number, also
  where no power of ten is computed.
-/

namespace LaxJson

theorem digitsValue_eq_ofDigitChars (ds : List Char) :
    digitsValue ds = Nat.ofDigitChars 10 ds 0 := by
  rw [digitsValue_eq_foldl, Nat.ofDigitChars_eq_foldl]
  simp only [digitValue, Nat.mul_comm]

/-- The magnitude of a decimal number, exactly. -/
def Decimal.absolute (d : Decimal) : ℚ := d.coefficient * 10 ^ d.exponent

/-! ## The grammar -/

/-- The pieces of a number in decimal notation. No exponent is one without digits. -/
structure Numeral where
  negative : Bool
  whole : List Char
  fraction : List Char
  shrinks : Bool
  exponent : List Char

namespace Numeral

def Digits (w : List Char) : Prop := ∀ c ∈ w, c.isDigit = true

/-- The digits, with a point unless there are none after it. -/
inductive Mantissa (whole fraction : List Char) : List Char → Prop where
  | integer : whole ≠ [] → fraction = [] → Mantissa whole fraction whole
  | point : whole ≠ [] ∨ fraction ≠ [] → Mantissa whole fraction (whole ++ '.' :: fraction)

/-- The exponent part, if there is one. -/
inductive Power : Bool → List Char → List Char → Prop where
  | absent : Power false [] []
  | plain {mark : Char} {ds : List Char} : mark = 'e' ∨ mark = 'E' → ds ≠ [] → Digits ds →
    Power false ds (mark :: ds)
  | plus {mark : Char} {ds : List Char} : mark = 'e' ∨ mark = 'E' → ds ≠ [] → Digits ds →
    Power false ds (mark :: '+' :: ds)
  | minus {mark : Char} {ds : List Char} : mark = 'e' ∨ mark = 'E' → ds ≠ [] → Digits ds →
    Power true ds (mark :: '-' :: ds)

/-- The text of a numeral without its sign. -/
inductive Unsigned (n : Numeral) : List Char → Prop where
  | parts {m x : List Char} : Digits n.whole → Digits n.fraction →
    Mantissa n.whole n.fraction m → Power n.shrinks n.exponent x → Unsigned n (m ++ x)

/-- The text of a numeral, `-? (digits (. digits?)? | . digits) ([eE] [+-]? digits)?`. -/
inductive Spells (n : Numeral) : List Char → Prop where
  | positive {text : List Char} : n.negative = false → n.Unsigned text → Spells n text
  | negative {text : List Char} : n.negative = true → n.Unsigned text → Spells n ('-' :: text)

/-- The pieces put together as `± coefficient * 10 ^ exponent`, with the digits of the exponent read
by `size`. -/
def decimal (size : List Char → Nat) (n : Numeral) : Decimal :=
  ⟨n.negative, digitsValue (n.whole ++ n.fraction),
    (if n.shrinks then -(size n.exponent : ℤ) else size n.exponent) - n.fraction.length⟩

/-! ## Taking a numeral apart -/

def splitPower? : List Char → Option (Bool × List Char)
  | [] => some (false, [])
  | c :: rest =>
    let (negative, digits) := Decimal.splitSign rest
    if (c = 'e' ∨ c = 'E') ∧ digits ≠ [] ∧ digits.all Char.isDigit then some (negative, digits)
    else none

def ofUnsigned? (negative : Bool) (text : List Char) : Option Numeral :=
  let whole := text.takeWhile Char.isDigit
  let (fraction, rest) := Decimal.splitFraction (text.dropWhile Char.isDigit)
  if whole = [] ∧ fraction = [] then none
  else
    match splitPower? rest with
    | some (shrinks, exponent) => some ⟨negative, whole, fraction, shrinks, exponent⟩
    | none => none

/-- The pieces of a text, if it is a numeral. -/
def ofText? : List Char → Option Numeral
  | '-' :: rest => ofUnsigned? true rest
  | text => ofUnsigned? false text

theorem exponent?_eq (text : List Char) :
    Decimal.exponent? text = (splitPower? text).map fun p =>
      if p.1 then -(exponentSize p.2 : ℤ) else exponentSize p.2 := by
  cases text with
  | nil => rfl
  | cons c rest =>
    simp only [Decimal.exponent?, splitPower?]
    split <;> rfl

theorem decimal_ofUnsigned? (negative : Bool) (text : List Char) :
    Decimal.ofUnsigned? negative text =
      (ofUnsigned? negative text).map (decimal exponentSize) := by
  simp only [Decimal.ofUnsigned?, ofUnsigned?, exponent?_eq]
  split
  · rfl
  · cases splitPower? (Decimal.splitFraction (text.dropWhile Char.isDigit)).2 <;> rfl

theorem ofText?_unsigned {text : List Char} (h : text.head? ≠ some '-') :
    ofText? text = ofUnsigned? false text ∧
      Decimal.ofText? text = Decimal.ofUnsigned? false text := by
  unfold ofText? Decimal.ofText?
  constructor <;> split <;> first | rfl | exact absurd rfl h

/-- A decimal number is read from the pieces of its text. -/
theorem decimal_ofText? (text : List Char) :
    Decimal.ofText? text = (ofText? text).map (decimal exponentSize) := by
  by_cases h : text.head? = some '-'
  · obtain ⟨rest, rfl⟩ := List.head?_eq_some_iff.mp h
    exact decimal_ofUnsigned? true rest
  · rw [(ofText?_unsigned h).1, (ofText?_unsigned h).2]
    exact decimal_ofUnsigned? false text

/-! ## What is taken for a numeral -/

/-- The text does not go on with a digit. -/
def Stops (x : List Char) : Prop := ∀ c, x.head? = some c → c.isDigit = false

theorem Digits.span {w x : List Char} (hw : Digits w) (hx : Stops x) :
    (w ++ x).takeWhile Char.isDigit = w ∧ (w ++ x).dropWhile Char.isDigit = x := by
  have hstop : x.takeWhile Char.isDigit = [] ∧ x.dropWhile Char.isDigit = x := by
    cases x with
    | nil => exact ⟨rfl, rfl⟩
    | cons c rest =>
      have hc := hx c rfl
      exact ⟨List.takeWhile_cons_of_neg (by rw [hc]; decide),
        List.dropWhile_cons_of_neg (by rw [hc]; decide)⟩
  rw [List.takeWhile_append_of_pos hw, List.dropWhile_append_of_pos hw, hstop.1, hstop.2,
    List.append_nil]
  exact ⟨rfl, rfl⟩

theorem Power.head {b : Bool} {ds x : List Char} (h : Power b ds x) :
    Stops x ∧ x.head? ≠ some '.' := by
  have hmark : ∀ mark : Char, mark = 'e' ∨ mark = 'E' → mark.isDigit = false ∧ mark ≠ '.' := by
    rintro mark (rfl | rfl) <;> decide
  have hcons : ∀ (mark : Char) (rest : List Char), mark = 'e' ∨ mark = 'E' →
      Stops (mark :: rest) ∧ (mark :: rest).head? ≠ some '.' := by
    intro mark rest hm
    refine ⟨?_, fun h => (hmark mark hm).2 (Option.some.inj h)⟩
    rintro c ⟨⟩
    exact (hmark mark hm).1
  cases h with
  | absent => exact ⟨by rintro c ⟨⟩, by rintro ⟨⟩⟩
  | plain hm | plus hm | minus hm => exact hcons _ _ hm

/-- An unsigned numeral starts with a digit or the point. -/
theorem Unsigned.head {n : Numeral} {text : List Char} (h : n.Unsigned text) :
    text.head? ≠ some '-' := by
  have hdigits : ∀ (w x : List Char), Digits w → w ≠ [] → (w ++ x).head? ≠ some '-' := by
    intro w x hw hne hhead
    cases w with
    | nil => exact hne rfl
    | cons c rest =>
      have hc := hw c List.mem_cons_self
      rw [Option.some.inj hhead] at hc
      exact absurd hc (by decide)
  obtain ⟨hwhole, -, hm, -⟩ := h
  cases hm with
  | integer hne _ => exact hdigits _ _ hwhole hne
  | point _ =>
    rw [List.append_assoc, List.cons_append]
    by_cases hne : n.whole = []
    · rw [hne]
      rintro ⟨⟩
    · exact hdigits _ _ hwhole hne

theorem splitSign_digits {ds : List Char} (h : Digits ds) :
    Decimal.splitSign ds = (false, ds) := by
  unfold Decimal.splitSign
  split
  · exact absurd (h '-' List.mem_cons_self) (by decide)
  · exact absurd (h '+' List.mem_cons_self) (by decide)
  · rfl

theorem splitPower?_eq_some {x ds : List Char} {b : Bool} :
    splitPower? x = some (b, ds) ↔ Power b ds x := by
  constructor
  · intro h
    cases x with
    | nil =>
      cases h
      exact .absent
    | cons c rest =>
      rcases hs : Decimal.splitSign rest with ⟨negative, digits⟩
      simp only [splitPower?, hs] at h
      split at h
      · rename_i hparts
        obtain ⟨hmark, hne, hall⟩ := hparts
        have hdigits : Digits digits := List.all_eq_true.mp hall
        cases h
        unfold Decimal.splitSign at hs
        split at hs <;> cases hs
        · exact .minus hmark hne hdigits
        · exact .plus hmark hne hdigits
        · exact .plain hmark hne hdigits
      · cases h
  · intro h
    cases h with
    | absent => rfl
    | plain hmark hne hds =>
      simp only [splitPower?, splitSign_digits hds]
      exact if_pos ⟨hmark, hne, List.all_eq_true.mpr hds⟩
    | plus hmark hne hds | minus hmark hne hds =>
      exact if_pos ⟨hmark, hne, List.all_eq_true.mpr hds⟩

/-- Digits, a point with digits after it or nothing, and the rest. -/
theorem splitFraction_spec (text : List Char) :
    let fraction := (Decimal.splitFraction text).1
    let rest := (Decimal.splitFraction text).2
    Digits fraction ∧ (text = '.' :: (fraction ++ rest) ∨ fraction = [] ∧ rest = text) := by
  unfold Decimal.splitFraction
  split
  · refine ⟨fun c hc => List.mem_takeWhile_imp hc, .inl ?_⟩
    rw [List.takeWhile_append_dropWhile]
  · exact ⟨by rintro c ⟨⟩, .inr ⟨rfl, rfl⟩⟩

theorem splitFraction_of_no_point {text : List Char} (h : text.head? ≠ some '.') :
    Decimal.splitFraction text = ([], text) := by
  unfold Decimal.splitFraction
  split
  · exact absurd rfl h
  · rfl

theorem ofUnsigned?_sound {text : List Char} {n : Numeral} {b : Bool}
    (h : ofUnsigned? b text = some n) : n.negative = b ∧ n.Unsigned text := by
  have htext := (List.takeWhile_append_dropWhile (p := Char.isDigit) (l := text)).symm
  have hwhole : Digits (text.takeWhile Char.isDigit) := fun c hc => List.mem_takeWhile_imp hc
  obtain ⟨hfraction, hsplit⟩ := splitFraction_spec (text.dropWhile Char.isDigit)
  simp only [ofUnsigned?] at h
  generalize text.takeWhile Char.isDigit = whole at *
  generalize text.dropWhile Char.isDigit = after at *
  generalize Decimal.splitFraction after = parts at *
  obtain ⟨fraction, rest⟩ := parts
  simp only at h hfraction hsplit
  split at h
  · cases h
  rename_i hsome
  split at h
  · rename_i shrinks exponent hpower
    cases h
    have hpower := splitPower?_eq_some.mp hpower
    refine ⟨rfl, ?_⟩
    rcases hsplit with rfl | ⟨rfl, rfl⟩
    · have hm : Mantissa whole fraction (whole ++ '.' :: fraction) :=
        .point (by tauto)
      have hparts := Unsigned.parts (n := ⟨b, whole, fraction, shrinks, exponent⟩) hwhole
        hfraction hm hpower
      rw [List.append_assoc] at hparts
      rw [htext]
      exact hparts
    · rw [htext]
      exact .parts hwhole hfraction (.integer (by tauto) rfl) hpower
  · cases h

theorem ofUnsigned?_complete {text : List Char} {n : Numeral} (h : n.Unsigned text) :
    ofUnsigned? n.negative text = some n := by
  obtain @⟨m, x, hwhole, hfraction, hm, hpower⟩ := h
  obtain ⟨hstops, hpoint⟩ := hpower.head
  have hpower := splitPower?_eq_some.mpr hpower
  cases hm with
  | integer hne hnone =>
    obtain ⟨htake, hdrop⟩ := hwhole.span hstops
    simp only [ofUnsigned?, htake, hdrop, splitFraction_of_no_point hpoint, hpower]
    rw [if_neg fun h => hne h.1, ← hnone]
  | point hne =>
    have hpoint : Stops ('.' :: (n.fraction ++ x)) := by
      rintro c ⟨⟩
      decide
    obtain ⟨htake, hdrop⟩ := hwhole.span hpoint
    obtain ⟨htake', hdrop'⟩ := hfraction.span hstops
    rw [List.append_assoc, List.cons_append]
    simp only [ofUnsigned?, htake, hdrop, Decimal.splitFraction, htake', hdrop', hpower]
    rw [if_neg fun h => hne.elim (· h.1) (· h.2)]

theorem ofUnsigned?_eq_some {text : List Char} {n : Numeral} {b : Bool} :
    ofUnsigned? b text = some n ↔ n.negative = b ∧ n.Unsigned text := by
  refine ⟨ofUnsigned?_sound, ?_⟩
  rintro ⟨rfl, hn⟩
  exact ofUnsigned?_complete hn

theorem ofText?_eq_some {text : List Char} {n : Numeral} :
    ofText? text = some n ↔ n.Spells text := by
  by_cases hsign : text.head? = some '-'
  · obtain ⟨rest, rfl⟩ := List.head?_eq_some_iff.mp hsign
    have hread : ofText? ('-' :: rest) = some n ↔ _ := ofUnsigned?_eq_some
    rw [hread]
    constructor
    · rintro ⟨hnegative, hn⟩
      exact .negative hnegative hn
    · rintro (⟨_, hn⟩ | ⟨hnegative, hn⟩)
      · exact absurd rfl hn.head
      · exact ⟨hnegative, hn⟩
  · rw [(ofText?_unsigned hsign).1, ofUnsigned?_eq_some]
    constructor
    · rintro ⟨hnegative, hn⟩
      exact .positive hnegative hn
    · rintro (⟨hnegative, hn⟩ | ⟨_, _⟩)
      · exact ⟨hnegative, hn⟩
      · exact absurd rfl hsign

/-! ## The number of a numeral -/

/-- The exact number that a numeral denotes, with the digits of the exponent read by `size`. -/
def denoted (size : List Char → Nat) (n : Numeral) : ℚ :=
  (if n.negative then -1 else 1) *
    (digitsValue n.whole + digitsValue n.fraction / 10 ^ n.fraction.length) *
    10 ^ (if n.shrinks then -(size n.exponent : ℤ) else size n.exponent)

theorem digitsValue_append (w x : List Char) :
    digitsValue (w ++ x) = digitsValue w * 10 ^ x.length + digitsValue x := by
  rw [digitsValue_eq_ofDigitChars, Nat.ofDigitChars_append, Nat.ofDigitChars_eq_ofDigitChars_zero,
    digitsValue_eq_ofDigitChars w, digitsValue_eq_ofDigitChars x, Nat.mul_comm]

theorem Digits.value_lt {ds : List Char} (h : Digits ds) : digitsValue ds < 10 ^ ds.length := by
  induction ds with
  | nil => decide
  | cons c rest ih =>
    obtain ⟨hc, hrest⟩ := List.forall_mem_cons.mp h
    have hdigit : digitsValue [c] ≤ 9 := by
      have hchar : c.toNat ≤ 57 := (Char.isDigit_iff_toNat.mp hc).2
      have hzero : '0'.toNat = 48 := rfl
      rw [digitsValue_eq_ofDigitChars, Nat.ofDigitChars_cons, Nat.ofDigitChars_nil]
      omega
    have hrest := ih hrest
    calc digitsValue (c :: rest)
        = digitsValue [c] * 10 ^ rest.length + digitsValue rest := digitsValue_append [c] rest
      _ < digitsValue [c] * 10 ^ rest.length + 10 ^ rest.length := by omega
      _ = (digitsValue [c] + 1) * 10 ^ rest.length := (Nat.succ_mul _ _).symm
      _ ≤ 10 * 10 ^ rest.length := Nat.mul_le_mul_right _ (by omega)
      _ = 10 ^ (c :: rest).length := Nat.pow_succ'.symm

/-- The pieces put together are the number, but for the sign. -/
theorem abs_denoted (size : List Char → Nat) (n : Numeral) :
    |n.denoted size| = (n.decimal size).absolute := by
  have hsign : |(if n.negative then -1 else 1 : ℚ)| = 1 := by
    split
    · rw [abs_neg, abs_one]
    · exact abs_one
  have hten : (10 : ℚ) ^ n.fraction.length ≠ 0 := pow_ne_zero _ (by norm_num)
  have hpoint : (digitsValue (n.whole ++ n.fraction) : ℚ) / 10 ^ n.fraction.length =
      digitsValue n.whole + digitsValue n.fraction / 10 ^ n.fraction.length := by
    rw [digitsValue_append, Nat.cast_add, Nat.cast_mul, Nat.cast_pow, add_div, Nat.cast_ofNat,
      mul_div_cancel_right₀ _ hten]
  simp only [decimal, denoted, Decimal.absolute]
  rw [abs_mul, abs_mul, hsign, one_mul, abs_of_nonneg (by positivity),
    abs_of_nonneg (by positivity), zpow_sub₀ (by norm_num), zpow_natCast, mul_div_assoc',
    mul_div_right_comm, hpoint]

end Numeral

/-! ## Rounding a decimal number -/

namespace Decimal

theorem two_pow_le_ten_pow (k : Nat) : (2 : ℚ) ^ (3 * k) ≤ 10 ^ k := by
  rw [pow_mul]
  exact pow_le_pow_left₀ (by norm_num) (by norm_num) k

/-- Past the exponent 400 every number exceeds the finite ones. -/
theorem absolute_large {d : Decimal} (hc : d.coefficient ≠ 0) (he : 400 < d.exponent) :
    2 ^ 1024 ≤ d.absolute := by
  have hone : (1 : ℚ) ≤ d.coefficient := Nat.one_le_cast.mpr (Nat.pos_of_ne_zero hc)
  have hpower : (10 : ℚ) ^ 401 ≤ 10 ^ d.exponent := by
    rw [← zpow_natCast]
    exact zpow_le_zpow_right₀ (by norm_num) he
  calc (2 : ℚ) ^ 1024
      ≤ 2 ^ (3 * 401) := pow_le_pow_right₀ (by norm_num) (by norm_num)
    _ ≤ 10 ^ 401 := two_pow_le_ten_pow 401
    _ ≤ 10 ^ d.exponent := hpower
    _ ≤ d.absolute := le_mul_of_one_le_left (by positivity) hone

/-- Below the exponent `-400 - log2 coefficient` every number is nearer to zero than to another. -/
theorem absolute_small {d : Decimal} (he : d.exponent < -(400 + d.coefficient.log2 : Nat)) :
    2 * d.absolute < Binary64.measure 1 := by
  have hcoefficient : (d.coefficient : ℚ) < 2 ^ (d.coefficient.log2 + 1) := by
    exact_mod_cast Nat.lt_log2_self
  have hpower : (10 : ℚ) ^ d.exponent ≤ 1 / 10 ^ (401 + d.coefficient.log2) := by
    rw [one_div, ← zpow_natCast, ← zpow_neg]
    exact zpow_le_zpow_right₀ (by norm_num) (by omega)
  have htwo : (2 : ℚ) * 2 ^ (d.coefficient.log2 + 1) * 2 ^ Binary64.places ≤
      10 ^ (401 + d.coefficient.log2) := by
    refine le_trans ?_ (two_pow_le_ten_pow _)
    rw [← pow_succ', ← pow_add]
    exact pow_le_pow_right₀ (by norm_num) (by rw [Binary64.places]; omega)
  rw [Binary64.measure_one]
  calc 2 * d.absolute
      < 2 * (2 ^ (d.coefficient.log2 + 1) * 10 ^ d.exponent) := by
        unfold absolute
        gcongr
    _ ≤ 2 * (2 ^ (d.coefficient.log2 + 1) * (1 / 10 ^ (401 + d.coefficient.log2))) := by gcongr
    _ ≤ 1 / 2 ^ Binary64.places := by
        rw [← mul_assoc, mul_one_div, div_le_div_iff₀ (by positivity) (by positivity), one_mul]
        exact htwo

theorem absolute_eq_div (d : Decimal) :
    d.absolute = (d.coefficient * Nat.pow 10 d.exponent.toNat : Nat) /
      (Nat.pow 10 (-d.exponent).toNat : Nat) := by
  have hpow : ∀ k : Nat, ((Nat.pow 10 k : Nat) : ℚ) = 10 ^ k := Nat.cast_pow 10
  have hsplit := Int.toNat_sub_toNat_neg d.exponent
  rw [Nat.cast_mul, hpow, hpow, absolute, mul_div_assoc, ← zpow_natCast, ← zpow_natCast,
    ← zpow_sub₀ (by norm_num), hsplit]

/-- **A decimal number becomes the nearest binary64 number.** -/
theorem nearest_toBinary64 (d : Decimal) : d.toBinary64.Nearest d.negative d.absolute := by
  unfold toBinary64
  split
  · rename_i hzero
    refine Binary64.nearest_zero _ ?_ ?_ <;> rw [absolute, hzero, Nat.cast_zero, zero_mul]
    rw [mul_zero, ← Binary64.measure_zero]
    exact Binary64.measure_strictMono Nat.zero_lt_one
  · rename_i hc
    split
    · rename_i he
      exact Binary64.nearest_infinity _ (absolute_large hc he)
    · split
      · rename_i he
        exact Binary64.nearest_zero _ (by unfold absolute; positivity) (absolute_small he)
      · rw [absolute_eq_div]
        exact Binary64.nearest_ofRatio _ _ (Nat.pow_pos (by decide))

end Decimal

theorem Numeral.nearest_decimal (size : List Char → Nat) (n : Numeral) :
    (n.decimal size).toBinary64.Nearest n.negative |n.denoted size| := by
  rw [abs_denoted]
  exact (n.decimal size).nearest_toBinary64

end LaxJson
