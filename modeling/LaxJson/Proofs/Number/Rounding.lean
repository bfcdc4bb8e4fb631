import LaxJson.Number.Binary64
import Mathlib.Algebra.Order.Field.Basic
import Mathlib.Algebra.Order.Field.Rat
import Mathlib.Tactic.FieldSimp
import Mathlib.Tactic.Linarith
import Mathlib.Tactic.NormNum
import Mathlib.Tactic.Ring

/-!
# LaxJson.Proofs.Number.Rounding

Rounding to binary64, by the exact numbers that the bit patterns stand for.

* `units`: the magnitude of a pattern, in units of the smallest one.
* `units_strictMono`: the patterns are in the order of their magnitudes.
* `Nearest`: a number is nearest to an exact one, of two equally near ones the even. Beyond the
  finite numbers stands infinity, in the place of `2 ^ 1024`.
* `nearest_ofRatio`: rounding a quotient gives the nearest number.
* `Nearest.isFinite_iff`: a nearest number is finite just below `2 ^ 1024 - 2 ^ 970`.
-/

namespace LaxJson
namespace Binary64

/-! ## Magnitudes -/

/-- The binary places that a magnitude may have behind the point. -/
def places : Nat := 1074

/-- How often the smallest magnitude goes into one. -/
def finest : Nat := 2 ^ places

theorem finest_pos : 0 < finest := Nat.two_pow_pos places

theorem shiftLeft_finest (num : Nat) : num <<< 1074 = num * finest := Nat.shiftLeft_eq num places

/-- The magnitude of a pattern, in units of the smallest one. -/
def units (p : Nat) : Nat :=
  if p < 2 ^ 52 then p else (2 ^ 52 + p % 2 ^ 52) * 2 ^ (p / 2 ^ 52 - 1)

theorem units_small {p : Nat} (h : p < 2 ^ 52) : units p = p := if_pos h

theorem units_normal (e : Nat) {f : Nat} (hf : f < 2 ^ 52) :
    units ((e + 1) * 2 ^ 52 + f) = (2 ^ 52 + f) * 2 ^ e := by
  have hmod : ((e + 1) * 2 ^ 52 + f) % 2 ^ 52 = f := by omega
  have hdiv : ((e + 1) * 2 ^ 52 + f) / 2 ^ 52 - 1 = e := by omega
  rw [units, if_neg (by omega), hmod, hdiv]

theorem exists_normal {p : Nat} (h : 2 ^ 52 ≤ p) :
    ∃ e f, f < 2 ^ 52 ∧ p = (e + 1) * 2 ^ 52 + f :=
  ⟨p / 2 ^ 52 - 1, p % 2 ^ 52, Nat.mod_lt _ (by decide), by omega⟩

/-- A pattern put together from a number of 53 digits and how many digits were cut off after it. -/
theorem units_add (shift : Nat) {q : Nat} (hq : shift = 0 ∨ 2 ^ 52 ≤ q) (hle : q ≤ 2 ^ 53) :
    units (shift * 2 ^ 52 + q) = q * 2 ^ shift := by
  rcases Nat.lt_or_ge q (2 ^ 52) with hsmall | hnormal
  · obtain rfl : shift = 0 := by omega
    rw [Nat.zero_mul, Nat.zero_add, units_small hsmall, Nat.pow_zero, Nat.mul_one]
  rcases Nat.lt_or_ge q (2 ^ 53) with hlt | hge
  · have hsplit : shift * 2 ^ 52 + q = (shift + 1) * 2 ^ 52 + (q - 2 ^ 52) := by omega
    rw [hsplit, units_normal shift (by omega), Nat.add_sub_of_le hnormal]
  · -- the carry has run into the exponent
    obtain rfl : q = 2 ^ 53 := Nat.le_antisymm hle hge
    have hsplit : shift * 2 ^ 52 + 2 ^ 53 = (shift + 1 + 1) * 2 ^ 52 + 0 := by omega
    rw [hsplit, units_normal (shift + 1) (by decide), Nat.pow_succ]
    omega

theorem units_strictMono : StrictMono units := by
  apply strictMono_nat_of_lt_succ
  intro p
  rcases Nat.lt_or_ge p (2 ^ 52) with hsmall | hnormal
  · have hnext := units_add 0 (q := p + 1) (.inl rfl) (by omega)
    rw [Nat.zero_mul, Nat.zero_add] at hnext
    rw [units_small hsmall, hnext]
    omega
  · obtain ⟨e, f, hf, rfl⟩ := exists_normal hnormal
    have hnext := units_add e (q := 2 ^ 52 + f + 1) (.inr (by omega)) (by omega)
    have hsplit : (e + 1) * 2 ^ 52 + f + 1 = e * 2 ^ 52 + (2 ^ 52 + f + 1) := by omega
    rw [units_normal e hf, hsplit, hnext]
    exact Nat.mul_lt_mul_of_pos_right (Nat.lt_succ_self _) (Nat.two_pow_pos e)

/-- The magnitudes from `2 ^ (52 + shift)` on are multiples of `2 ^ shift`. -/
theorem units_grid (p shift : Nat) : units p < 2 ^ (52 + shift) ∨ 2 ^ shift ∣ units p := by
  rcases Nat.lt_or_ge p (2 ^ 52) with hsmall | hnormal
  · rw [units_small hsmall]
    exact .inl (Nat.lt_of_lt_of_le hsmall (Nat.pow_le_pow_right (by decide) (Nat.le_add_right _ _)))
  · obtain ⟨e, f, hf, rfl⟩ := exists_normal hnormal
    rw [units_normal e hf]
    rcases Nat.lt_or_ge e shift with hlt | hge
    · left
      calc (2 ^ 52 + f) * 2 ^ e
          < 2 ^ 53 * 2 ^ e := Nat.mul_lt_mul_of_pos_right (by omega) (Nat.two_pow_pos e)
        _ = 2 ^ (53 + e) := (Nat.pow_add 2 53 e).symm
        _ ≤ 2 ^ (52 + shift) := Nat.pow_le_pow_right (by decide) (by omega)
    · exact .inr (Nat.dvd_mul_left_of_dvd (Nat.pow_dvd_pow 2 hge) _)

/-! ## Rounding to a whole number -/

theorem roundHalfEven_bounds (num den : Nat) :
    num / den ≤ roundHalfEven num den ∧ roundHalfEven num den ≤ num / den + 1 := by
  simp only [roundHalfEven]
  split
  · omega
  · split <;> omega

/-- The error is at most one half, and one half only if the result is even. -/
theorem roundHalfEven_error (num : Nat) {den : Nat} (hden : 0 < den) :
    2 * |(roundHalfEven num den * den : ℤ) - num| ≤ den ∧
      (2 * |(roundHalfEven num den * den : ℤ) - num| = den → roundHalfEven num den % 2 = 0) := by
  have hlt := Nat.mod_lt num hden
  have hnum : (num : ℤ) = (num / den : ℕ) * den + (num % den : ℕ) := by
    exact_mod_cast (Nat.div_add_mod' num den).symm
  have hlow : |((num / den : ℕ) * den : ℤ) - num| = (num % den : ℕ) := by
    rw [hnum, sub_add_cancel_left, abs_neg, Nat.abs_cast]
  have hhigh : |((num / den + 1 : ℕ) * den : ℤ) - num| = den - (num % den : ℕ) := by
    rw [hnum, Nat.cast_succ, add_one_mul, add_sub_add_left_eq_sub, abs_of_nonneg]
    omega
  simp only [roundHalfEven]
  split
  · rw [hlow]
    omega
  · split
    · rw [hhigh]
      omega
    · obtain heven | hodd := Nat.mod_two_eq_zero_or_one (num / den)
      · rw [heven, Nat.add_zero, hlow]
        omega
      · rw [hodd, hhigh]
        omega

/-- No multiple of the denominator is nearer, and if another one is as near, the result is even. -/
theorem roundHalfEven_nearest (num : Nat) {den : Nat} (hden : 0 < den) {m : Nat}
    (hm : m ≠ roundHalfEven num den) :
    |(roundHalfEven num den * den : ℤ) - num| ≤ |(m * den : ℤ) - num| ∧
      (|(m * den : ℤ) - num| = |(roundHalfEven num den * den : ℤ) - num| →
        roundHalfEven num den % 2 = 0) := by
  obtain ⟨herror, heven⟩ := roundHalfEven_error num hden
  have happart : (den : ℤ) ≤ |(m * den : ℤ) - num| + |(roundHalfEven num den * den : ℤ) - num| := by
    have hone : (1 : ℤ) ≤ |(m : ℤ) - roundHalfEven num den| :=
      Int.one_le_abs (sub_ne_zero.mpr (by exact_mod_cast hm))
    calc (den : ℤ)
        ≤ |(m : ℤ) - roundHalfEven num den| * den := le_mul_of_one_le_left (by positivity) hone
      _ = |(m * den : ℤ) - roundHalfEven num den * den| := by rw [← sub_mul, abs_mul, Nat.abs_cast]
      _ ≤ |(m * den : ℤ) - num| + |(num : ℤ) - roundHalfEven num den * den| := abs_sub_le _ _ _
      _ = _ := by rw [abs_sub_comm (num : ℤ)]
  constructor
  · linarith
  · intro htie
    exact heven (by linarith)

/-- What lies below a multiple that is not above the number is farther away. -/
theorem roundHalfEven_below {num den m k : Nat} (hden : 0 < den) (hk : k < m * den)
    (hm : m * den ≤ num) : |(roundHalfEven num den * den : ℤ) - num| < |(k : ℤ) - num| := by
  have hnearest : |(roundHalfEven num den * den : ℤ) - num| ≤ |(m * den : ℤ) - num| := by
    by_cases heq : m = roundHalfEven num den
    · rw [heq]
    · exact (roundHalfEven_nearest num hden heq).1
  zify at hk hm
  calc |(roundHalfEven num den * den : ℤ) - num|
      ≤ |(m * den : ℤ) - num| := hnearest
    _ = num - m * den := by rw [abs_of_nonpos (by linarith), neg_sub]
    _ < num - k := by linarith
    _ = |(k : ℤ) - num| := by rw [abs_of_nonpos (by linarith), neg_sub]

/-! ## Rounding to a pattern -/

/-- How many binary digits of the quotient are cut off. -/
def cut (num den : Nat) : Nat :=
  if (num <<< 1074) / den < 1 <<< 53 then 0 else ((num <<< 1074) / den).log2 - 52

/-- The pattern nearest to the quotient, if there were no greatest one. -/
def rounded (num den : Nat) : Nat :=
  (cut num den <<< 52) + roundHalfEven (num <<< 1074) (den <<< cut num den)

theorem magnitude_eq (num den : Nat) :
    magnitude num den = min (rounded num den) infinityBits := rfl

/-- What is left of the quotient has at most 53 digits, and no fewer if any are cut off. -/
theorem cut_spec (num : Nat) {den : Nat} (hden : 0 < den) :
    num * finest < 2 ^ (53 + cut num den) * den ∧
      (cut num den = 0 ∨ 2 ^ (52 + cut num den) * den ≤ num * finest) := by
  rw [cut, shiftLeft_finest, Nat.shiftLeft_eq, Nat.one_mul]
  generalize num * finest = scaled
  split
  · rename_i hlt
    exact ⟨(Nat.div_lt_iff_lt_mul hden).mp hlt, .inl rfl⟩
  · rename_i hge
    have hne : scaled / den ≠ 0 := by omega
    have hlog : 53 ≤ (scaled / den).log2 := (Nat.le_log2 hne).mpr (Nat.not_lt.mp hge)
    have hhigh : 53 + ((scaled / den).log2 - 52) = (scaled / den).log2 + 1 := by omega
    have hlow : 52 + ((scaled / den).log2 - 52) = (scaled / den).log2 := by omega
    rw [hhigh, hlow]
    exact ⟨(Nat.div_lt_iff_lt_mul hden).mp Nat.lt_log2_self,
      .inr ((Nat.le_div_iff_mul_le hden).mp (Nat.log2_self_le hne))⟩

/-- The width of the last digit that is kept, in units of the smallest magnitude and of the
denominator. -/
def digitWidth (num den : Nat) : Nat := den * 2 ^ cut num den

theorem digitWidth_pos (num : Nat) {den : Nat} (hden : 0 < den) : 0 < digitWidth num den :=
  Nat.mul_pos hden (Nat.two_pow_pos _)

theorem rounded_eq (num den : Nat) :
    rounded num den = cut num den * 2 ^ 52 + roundHalfEven (num * finest) (digitWidth num den) := by
  rw [rounded, shiftLeft_finest, Nat.shiftLeft_eq, Nat.shiftLeft_eq, digitWidth]

theorem units_rounded (num : Nat) {den : Nat} (hden : 0 < den) :
    units (rounded num den) =
      roundHalfEven (num * finest) (digitWidth num den) * 2 ^ cut num den := by
  obtain ⟨hlt, hcut⟩ := cut_spec num hden
  rw [Nat.pow_add, Nat.mul_assoc, Nat.mul_comm (2 ^ cut num den)] at hlt hcut
  have hwidth := digitWidth_pos num hden
  obtain ⟨hlow, hhigh⟩ := roundHalfEven_bounds (num * finest) (digitWidth num den)
  rw [rounded_eq]
  apply units_add
  · exact hcut.imp_right fun h => Nat.le_trans ((Nat.le_div_iff_mul_le hwidth).mpr h) hlow
  · exact Nat.le_trans hhigh ((Nat.div_lt_iff_lt_mul hwidth).mpr hlt)

/-- The distance of a magnitude from the quotient, in units of the smallest magnitude and of the
denominator. -/
def distance (num den p : Nat) : ℤ := |(units p * den : ℤ) - (num * finest : ℕ)|

theorem distance_of_multiple {num den p m : Nat} (hp : units p = m * 2 ^ cut num den) :
    distance num den p = |(m * digitWidth num den : ℤ) - (num * finest : ℕ)| := by
  have hscaled : (units p * den : ℤ) = m * digitWidth num den := by
    rw [hp, digitWidth]
    push_cast
    ring
  rw [distance, hscaled]

/-- No other pattern is nearer, and if another one is as near, the result is even. -/
theorem rounded_nearest {num den : Nat} (hden : 0 < den) {p : Nat} (hp : p ≠ rounded num den) :
    distance num den (rounded num den) ≤ distance num den p ∧
      (distance num den p = distance num den (rounded num den) → rounded num den % 2 = 0) := by
  have hwidth := digitWidth_pos num hden
  have hunits := units_rounded num hden
  rw [distance_of_multiple hunits]
  by_cases hdvd : 2 ^ cut num den ∣ units p
  · -- the other magnitude is on the grid of the result
    obtain ⟨m, hm⟩ := hdvd
    rw [Nat.mul_comm] at hm
    have hne : m ≠ roundHalfEven (num * finest) (digitWidth num den) := by
      rintro rfl
      exact hp (units_strictMono.injective (hm.trans hunits.symm))
    obtain ⟨hle, heven⟩ := roundHalfEven_nearest (num * finest) hwidth hne
    rw [distance_of_multiple hm, rounded_eq]
    refine ⟨hle, fun htie => ?_⟩
    have heven := heven htie
    omega
  · -- it is below, and so is one on the grid that is nearer
    have hsmall : units p < 2 ^ (52 + cut num den) := (units_grid p _).resolve_right hdvd
    have hsplit : 2 ^ (52 + cut num den) * den = 2 ^ 52 * digitWidth num den := by
      rw [digitWidth, Nat.pow_add, Nat.mul_assoc, Nat.mul_comm den]
    have hbelow : units p * den < 2 ^ 52 * digitWidth num den := by
      rw [← hsplit]
      exact Nat.mul_lt_mul_of_pos_right hsmall hden
    have hfloor : 2 ^ 52 * digitWidth num den ≤ num * finest := by
      rw [← hsplit]
      refine (cut_spec num hden).2.resolve_left fun hcut => hdvd ?_
      rw [hcut]
      exact Nat.one_dvd _
    have hfar := roundHalfEven_below hwidth hbelow hfloor
    rw [Nat.cast_mul (units p)] at hfar
    exact ⟨hfar.le, fun htie => absurd htie hfar.ne'⟩

/-- The greatest pattern, infinity, takes the place of all above it. -/
theorem magnitude_nearest {num den : Nat} (hden : 0 < den) {p : Nat} (hp : p ≤ infinityBits)
    (hne : p ≠ magnitude num den) :
    distance num den (magnitude num den) ≤ distance num den p ∧
      (distance num den p = distance num den (magnitude num den) → magnitude num den % 2 = 0) := by
  rw [magnitude_eq] at hne ⊢
  rcases le_or_gt (rounded num den) infinityBits with hle | hgt
  · rw [Nat.min_eq_left hle] at hne ⊢
    exact rounded_nearest hden hne
  · rw [Nat.min_eq_right (Nat.le_of_lt hgt)] at hne ⊢
    refine ⟨?_, fun _ => by decide⟩
    have hunits : units p * den < units infinityBits * den :=
      Nat.mul_lt_mul_of_pos_right (units_strictMono (Nat.lt_of_le_of_ne hp hne)) hden
    have hunits' : units infinityBits * den < units (rounded num den) * den :=
      Nat.mul_lt_mul_of_pos_right (units_strictMono hgt) hden
    obtain ⟨hnearer, -⟩ := rounded_nearest hden (Nat.ne_of_lt hgt)
    unfold distance at *
    zify at hunits hunits'
    -- infinity lies between the quotient and all other patterns
    have hbeyond : (units infinityBits * den : ℤ) ≤ (num * finest : ℕ) := by
      by_contra hbefore
      rw [abs_of_pos (by linarith), abs_of_pos (by linarith)] at hnearer
      linarith
    rw [abs_of_nonpos (by linarith), abs_of_nonpos (by linarith)]
    linarith

/-! ## Nearest numbers -/

/-- The magnitude of a pattern, exactly. Infinity stands for the one after the greatest finite. -/
def measure (p : Nat) : ℚ := units p / finest

theorem measure_strictMono : StrictMono measure := by
  intro p q h
  have hunits : (units p : ℚ) < units q := Nat.cast_lt.mpr (units_strictMono h)
  exact div_lt_div_of_pos_right hunits (Nat.cast_pos.mpr finest_pos)

def isNegative (x : Binary64) : Bool := 1 <<< 63 ≤ x.bits.toNat

/-- `x` has this sign and is nearest to the magnitude `m`; if another pattern is as near, it is
even. -/
structure Nearest (x : Binary64) (negative : Bool) (m : ℚ) : Prop where
  sign : x.isNegative = negative
  number : x.pattern ≤ infinityBits
  near : ∀ p ≤ infinityBits, |measure x.pattern - m| ≤ |measure p - m|
  even : ∀ p ≤ infinityBits, p ≠ x.pattern → |measure p - m| = |measure x.pattern - m| →
    x.pattern % 2 = 0

theorem ofMagnitude_spec (negative : Bool) {p : Nat} (hp : p ≤ infinityBits) :
    (ofMagnitude negative p).isNegative = negative ∧ (ofMagnitude negative p).pattern = p := by
  have hbound : infinityBits < 2 ^ 63 := by decide
  have hbits : ∀ n, n < 2 ^ 64 → (UInt64.ofNat n).toNat = n := fun n => UInt64.toNat_ofNat_of_lt
  rw [isNegative, pattern, ofMagnitude, Nat.one_shiftLeft]
  cases negative with
  | true =>
    simp only [if_true, hbits (2 ^ 63 + p) (by omega)]
    exact ⟨decide_eq_true (by omega), by omega⟩
  | false =>
    simp only [Bool.false_eq_true, if_false, hbits (0 + p) (by omega)]
    exact ⟨decide_eq_false (by omega), by omega⟩

theorem nearest_ofMagnitude (negative : Bool) {p : Nat} {m : ℚ} (hp : p ≤ infinityBits)
    (hnear : ∀ q ≤ infinityBits, q ≠ p → |measure p - m| ≤ |measure q - m| ∧
      (|measure q - m| = |measure p - m| → p % 2 = 0)) :
    (ofMagnitude negative p).Nearest negative m := by
  obtain ⟨hsign, hpattern⟩ := ofMagnitude_spec negative hp
  refine ⟨hsign, hpattern.trans_le hp, ?_, ?_⟩
  · intro q hq
    rw [hpattern]
    by_cases hne : q = p
    · rw [hne]
    · exact (hnear q hq hne).1
  · intro q hq hne
    rw [hpattern] at hne ⊢
    exact (hnear q hq hne).2

theorem abs_measure_sub {num den : Nat} (hden : 0 < den) (p : Nat) :
    |measure p - num / den| = distance num den p / (finest * den : ℕ) := by
  have hfinest : (0 : ℚ) < finest := Nat.cast_pos.mpr finest_pos
  have hden' : (0 : ℚ) < den := Nat.cast_pos.mpr hden
  rw [measure, div_sub_div _ _ hfinest.ne' hden'.ne', abs_div, distance,
    abs_of_pos (mul_pos hfinest hden'), mul_comm (finest : ℚ) num]
  push_cast
  rfl

/-- **A quotient is rounded to the nearest number.** -/
theorem nearest_ofRatio (negative : Bool) (num : Nat) {den : Nat} (hden : 0 < den) :
    (ofRatio negative num den).Nearest negative (num / den) := by
  have hscale : (0 : ℚ) < (finest * den : ℕ) := Nat.cast_pos.mpr (Nat.mul_pos finest_pos hden)
  refine nearest_ofMagnitude negative (Nat.min_le_right _ _) ?_
  intro q hq hne
  obtain ⟨hle, heven⟩ := magnitude_nearest hden hq hne
  rw [abs_measure_sub hden, abs_measure_sub hden, div_le_div_iff_of_pos_right hscale,
    div_left_inj' hscale.ne', Int.cast_le, Int.cast_inj]
  exact ⟨hle, heven⟩

/-! ## Beyond the smallest and the greatest number -/

theorem measure_zero : measure 0 = 0 := by
  rw [measure, units_small (by decide), Nat.cast_zero, zero_div]

theorem measure_one : measure 1 = 1 / 2 ^ places := by
  rw [measure, units_small (by decide), finest, Nat.cast_one, Nat.cast_pow, Nat.cast_ofNat]

theorem nearest_zero (negative : Bool) {m : ℚ} (h0 : 0 ≤ m) (h : 2 * m < measure 1) :
    (ofMagnitude negative 0).Nearest negative m := by
  refine nearest_ofMagnitude negative (Nat.zero_le _) fun q _ hq => ?_
  have hone : measure 1 ≤ measure q := measure_strictMono.monotone (Nat.pos_of_ne_zero hq)
  rw [measure_zero, zero_sub, abs_neg, abs_of_nonneg h0, abs_of_nonneg (by linarith)]
  exact ⟨by linarith, fun htie => absurd htie (by linarith)⟩

theorem measure_normal (e : Nat) {f : Nat} (hf : f < 2 ^ 52) :
    measure ((e + 1) * 2 ^ 52 + f) = (2 ^ 52 + f) * 2 ^ e / 2 ^ places := by
  rw [measure, units_normal e hf, finest]
  push_cast
  rfl

theorem measure_infinity : measure infinityBits = 2 ^ 1024 := by
  have hbits : infinityBits = (2046 + 1) * 2 ^ 52 + 0 := by decide
  rw [hbits, measure_normal 2046 (by decide), div_eq_iff (by positivity), Nat.cast_zero, add_zero,
    ← pow_add, ← pow_add, places]

theorem nearest_infinity (negative : Bool) {m : ℚ} (h : 2 ^ 1024 ≤ m) :
    (ofMagnitude negative infinityBits).Nearest negative m := by
  refine nearest_ofMagnitude negative (Nat.le_refl _) fun q hq hne => ?_
  have hlt : measure q < measure infinityBits := measure_strictMono (Nat.lt_of_le_of_ne hq hne)
  rw [← measure_infinity] at h
  rw [abs_of_nonpos (by linarith), abs_of_nonpos (by linarith)]
  exact ⟨by linarith, fun _ => by decide⟩

theorem measure_greatest : measure (infinityBits - 1) = 2 ^ 1024 - 2 ^ 971 := by
  have hbits : infinityBits - 1 = (2045 + 1) * 2 ^ 52 + (2 ^ 52 - 1) := by decide
  have hsum : ((2 : ℚ) ^ 52 + (2 ^ 52 - 1 : ℕ)) = 2 ^ 53 - 1 := by norm_num
  rw [hbits, measure_normal 2045 (by decide), hsum, div_eq_iff (by positivity), sub_mul, sub_mul,
    one_mul, ← pow_add, ← pow_add, ← pow_add, places]

/-- **A nearest number is finite just below the middle between the greatest finite number and
`2 ^ 1024`**, however the sign is. -/
theorem Nearest.isFinite_iff {x : Binary64} {negative : Bool} {m : ℚ}
    (h : x.Nearest negative m) : x.isFinite = true ↔ m < 2 ^ 1024 - 2 ^ 970 := by
  have hscale : (0 : ℚ) < 2 ^ 970 := by positivity
  have hgreatest := measure_greatest
  have hinfinity := measure_infinity
  rw [show (2 : ℚ) ^ 1024 = 2 ^ 54 * 2 ^ 970 by rw [← pow_add],
    show (2 : ℚ) ^ 971 = 2 * 2 ^ 970 by rw [← pow_succ']] at *
  generalize (2 : ℚ) ^ 970 = a at *
  rw [isFinite, decide_eq_true_eq]
  constructor
  · intro hfinite
    have hle : measure x.pattern ≤ measure (infinityBits - 1) :=
      measure_strictMono.monotone (by omega)
    have hnear := h.near infinityBits (Nat.le_refl _)
    by_contra hm
    rw [hgreatest] at hle
    rw [hinfinity, abs_of_neg (by linarith)] at hnear
    -- not beyond infinity, so in the middle, where the greatest finite number is odd
    have hbefore : m < 2 ^ 54 * a := by
      by_contra hbeyond
      rw [abs_of_nonpos (by linarith)] at hnear
      linarith
    rw [abs_of_pos (by linarith)] at hnear
    have htop : measure x.pattern = measure (infinityBits - 1) := by linarith
    have hpattern := measure_strictMono.injective htop
    have htie : |measure infinityBits - m| = |measure x.pattern - m| := by
      rw [hinfinity, abs_of_pos (by linarith), abs_of_neg (by linarith)]
      linarith
    have heven := h.even infinityBits (Nat.le_refl _) (Nat.ne_of_gt hfinite) htie
    rw [hpattern] at heven
    exact absurd heven (by decide)
  · intro hm
    by_contra hinfinite
    have hpattern : x.pattern = infinityBits := Nat.le_antisymm h.number (Nat.not_lt.mp hinfinite)
    have hnear := h.near (infinityBits - 1) (Nat.sub_le _ _)
    rw [hpattern, hgreatest, hinfinity, abs_of_pos (by linarith)] at hnear
    rcases abs_cases (2 ^ 54 * a - 2 * a - m) with ⟨hcase, -⟩ | ⟨hcase, -⟩ <;> linarith

end Binary64
end LaxJson
