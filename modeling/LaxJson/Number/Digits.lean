/-!
# LaxJson.Number.Digits

Runs of decimal digits. `digitsValue` is the number that a run spells from the left. Digits are
collected in blocks, and a full block joins the number at once, so a long number is seldom
multiplied; `digitsValue_eq_foldl` says that this is the digit by digit reading. The run of an
exponent is read by `exponentSize`, which stops at a limit and below it agrees with `digitsValue`.
-/

namespace LaxJson

/-- The value of a decimal digit. -/
def digitValue (c : Char) : Nat := c.toNat - '0'.toNat

/-- The scale of a full block. -/
def fullScale : Nat := Nat.pow 10 400

/-- A number being read: `block` holds its last digits, and `scale` is the power of ten for as many
digits. -/
structure DigitRun where
  whole : Nat
  block : Nat
  scale : Nat

namespace DigitRun

/-- The number read so far. -/
def value (run : DigitRun) : Nat := run.whole * run.scale + run.block

/-- One more digit at the end. -/
def push (run : DigitRun) (digit : Nat) : DigitRun :=
  if run.scale < fullScale then ⟨run.whole, run.block * 10 + digit, run.scale * 10⟩
  else ⟨run.value, digit, 10⟩

theorem value_push (run : DigitRun) (digit : Nat) :
    (run.push digit).value = run.value * 10 + digit := by
  simp only [push]
  split
  · simp only [value, Nat.add_mul, Nat.mul_assoc, Nat.add_assoc]
  · rfl

theorem value_foldl (digits : List Char) (run : DigitRun) :
    (digits.foldl (fun run c => run.push (digitValue c)) run).value =
      digits.foldl (fun n c => n * 10 + digitValue c) run.value := by
  induction digits generalizing run with
  | nil => rfl
  | cons c rest ih => simp only [List.foldl_cons, ih, value_push]

end DigitRun

/-- The number that a run of digits denotes. -/
def digitsValue (digits : List Char) : Nat :=
  (digits.foldl (fun run c => run.push (digitValue c)) (⟨0, 0, 1⟩ : DigitRun)).value

theorem digitsValue_eq_foldl (digits : List Char) :
    digitsValue digits = digits.foldl (fun n c => n * 10 + digitValue c) 0 :=
  DigitRun.value_foldl digits ⟨0, 0, 1⟩

theorem le_foldl_digits (digits : List Char) (n : Nat) :
    n ≤ digits.foldl (fun n c => n * 10 + digitValue c) n := by
  induction digits generalizing n with
  | nil => simp
  | cons c rest ih =>
    have h := ih (n * 10 + digitValue c)
    simp only [List.foldl_cons]
    omega

/-- The size at which a written exponent is complete. -/
def exponentLimit : Nat := 0x10000

/-- The size of a written exponent: digits are taken from the left until the limit is reached, and
any further ones are passed over. -/
def exponentSize (digits : List Char) : Nat :=
  digits.foldl (fun n c => if n < exponentLimit then n * 10 + digitValue c else n) 0

theorem foldl_exponent_of_lt (digits : List Char) (n : Nat)
    (h : digits.foldl (fun n c => n * 10 + digitValue c) n < exponentLimit) :
    digits.foldl (fun n c => if n < exponentLimit then n * 10 + digitValue c else n) n =
      digits.foldl (fun n c => n * 10 + digitValue c) n := by
  induction digits generalizing n with
  | nil => rfl
  | cons c rest ih =>
    have start := le_foldl_digits (c :: rest) n
    simp only [List.foldl_cons] at h start ⊢
    rw [if_pos (by omega), ih _ h]

/-- An exponent below the limit is the number that its digits denote. -/
theorem exponentSize_of_lt {digits : List Char} (h : digitsValue digits < exponentLimit) :
    exponentSize digits = digitsValue digits := by
  rw [digitsValue_eq_foldl] at h ⊢
  exact foldl_exponent_of_lt digits 0 h

end LaxJson
