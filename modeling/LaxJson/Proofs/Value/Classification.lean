import LaxJson.Literal
import LaxJson.Proofs.Number.Numerals

/-!
# LaxJson.Proofs.Value.Classification

What an unquoted text becomes. `Classified` says for each kind of value which texts become one, and
`valueWith` is the reading of a text with the parser of decimal numbers left open.

* `value_classified`: every text is classified, by any parser that reads decimal numbers as the
  nearest binary64 number.
-/

namespace LaxJson
namespace Literal

/-! ## Keywords -/

/-- The letters of a word in small letters, each in any case. -/
def Caseless (text word : List Char) : Prop :=
  List.Forall₂ (fun c d => c = d ∨ c = d.toUpper) text word

theorem toLower_eq_iff {c d : Char} (hd : d.isLower = true) :
    c.toLower = d ↔ c = d ∨ c = d.toUpper := by
  obtain ⟨hfrom, hto⟩ := (Bool.and_eq_true _ _).mp hd
  have hfrom : 'a'.val ≤ d.val := of_decide_eq_true hfrom
  have hto : d.val ≤ 'z'.val := of_decide_eq_true hto
  have hupper : d.toUpper.val = d.val + ('A'.val - 'a'.val) := by
    unfold Char.toUpper
    rw [dif_pos ⟨hfrom, hto⟩]
  have hletters : 'a'.val.toNat = 97 ∧ 'z'.val.toNat = 122 ∧ 'A'.val.toNat = 65 ∧
      'Z'.val.toNat = 90 := ⟨rfl, rfl, rfl, rfl⟩
  have hbound := c.val.toNat_lt
  unfold Char.toLower
  rw [UInt32.le_iff_toNat_le] at hfrom hto
  split <;> rename_i hc <;> rw [ge_iff_le, UInt32.le_iff_toNat_le, UInt32.le_iff_toNat_le] at hc <;>
    simp only [Char.ext_iff, hupper, ← UInt32.toNat_inj, UInt32.toNat_add, UInt32.toNat_sub] <;>
    omega

theorem map_toLower_eq_iff {text word : List Char} (hword : ∀ d ∈ word, d.isLower = true) :
    text.map Char.toLower = word ↔ Caseless text word := by
  induction text generalizing word with
  | nil => cases word <;> simp [Caseless]
  | cons c rest ih =>
    cases word with
    | nil => simp [Caseless]
    | cons d word =>
      obtain ⟨hd, hword⟩ := List.forall_mem_cons.mp hword
      rw [List.map_cons, List.cons.injEq, toLower_eq_iff hd, ih hword, Caseless, Caseless,
        List.forall₂_cons]

theorem folded_eq_iff {text : String} (word : String)
    (hword : word.toList.all Char.isLower = true) :
    String.ofList (text.toList.map Char.toLower) = word ↔ Caseless text.toList word.toList := by
  rw [← map_toLower_eq_iff (List.all_eq_true.mp hword), ← String.toList_inj, String.toList_ofList]

/-- A keyword does not start like a number. -/
theorem Caseless.startsNumber {text rest : List Char} {d : Char} (h : Caseless text (d :: rest))
    (hlower : startsNumber [d] = false) (hupper : startsNumber [d.toUpper] = false) :
    startsNumber text = false := by
  cases h with
  | cons hc _ =>
    rcases hc with rfl | rfl
    · exact hlower
    · exact hupper

/-! ## Integers -/

theorem digitsValue_toDigits (n : Nat) : digitsValue (Nat.toDigits 10 n) = n := by
  rw [digitsValue_eq_ofDigitChars, Nat.ofDigitChars_ten_toDigits]

theorem digits_toDigits (n : Nat) : Numeral.Digits (Nat.toDigits 10 n) :=
  fun _ hc => Nat.isDigit_of_mem_toDigits (by decide) (by decide) hc

theorem integerValue_digits {ds : List Char} (h : Numeral.Digits ds) :
    integerValue ds = digitsValue ds := by
  unfold integerValue
  split
  · exact absurd (h '-' List.mem_cons_self) (by decide)
  · rfl

theorem integerValue_spell (n : Int64) : integerValue (spell n) = n.toInt := by
  rw [spell]
  split
  · rw [integerValue, digitsValue_toDigits]
    omega
  · rw [integerValue_digits (digits_toDigits _), digitsValue_toDigits]
    omega

/-- The integers are read from their spellings and from no other text. -/
theorem integer?_eq_some {text : List Char} {n : Int64} :
    integer? text = some n ↔ text = spell n := by
  constructor
  · intro h
    simp only [integer?] at h
    split at h
    · rename_i hspell
      cases h
      exact hspell.symm
    · cases h
  · rintro rfl
    simp only [integer?, integerValue_spell, Int64.ofInt_toInt, if_pos]

theorem ofList_spell (n : Int64) : String.ofList (spell n) = toString n := by
  have hrepr : toString n = n.toInt.repr := rfl
  rw [hrepr, Int.repr_eq_if, spell]
  split
  · have habs : n.toInt.natAbs = (-n.toInt).toNat := by omega
    rw [if_neg (by omega), Nat.repr_eq_ofList_toDigits, ← String.toList_inj, habs]
    simp only [String.toList_append, String.toList_ofList]
    rfl
  · have habs : n.toInt.natAbs = n.toInt.toNat := by omega
    rw [if_pos (by omega), Nat.repr_eq_ofList_toDigits, habs]

theorem eq_spell_iff {text : String} {n : Int64} : text.toList = spell n ↔ text = toString n := by
  rw [← ofList_spell, ← String.toList_inj, String.toList_ofList]

theorem isDecimalMark_digit {c : Char} (h : c.isDigit = true) : isDecimalMark c = false := by
  by_contra hmark
  simp only [isDecimalMark, Bool.not_eq_false, Bool.or_eq_true, decide_eq_true_eq] at hmark
  rcases hmark with (rfl | rfl) | rfl <;> exact absurd h (by decide)

theorem spell_chars (n : Int64) :
    startsNumber (spell n) = true ∧ (spell n).any isDecimalMark = false := by
  have hdigits := digits_toDigits n.toInt.natAbs
  have hmarks : (Nat.toDigits 10 n.toInt.natAbs).any isDecimalMark = false := by
    refine List.any_eq_false.mpr fun c hc => ?_
    rw [isDecimalMark_digit (hdigits c hc)]
    exact Bool.false_ne_true
  rw [spell]
  split
  · exact ⟨rfl, hmarks⟩
  · refine ⟨?_, hmarks⟩
    cases hds : Nat.toDigits 10 n.toInt.natAbs with
    | nil => exact absurd hds Nat.toDigits_ne_nil
    | cons c rest => rw [startsNumber, hdigits c (hds ▸ List.mem_cons_self), Bool.true_or]

/-- Texts with a sign and digits that are no spelling of an integer: with a zero in front, a
negative zero, and out of range. -/
inductive Misspelled : List Char → Prop where
  | zero {ds : List Char} : ds ≠ [] → Numeral.Digits ds → Misspelled ('0' :: ds)
  | negativeZero {ds : List Char} : Numeral.Digits ds → Misspelled ('-' :: '0' :: ds)
  | above {ds : List Char} : Numeral.Digits ds → 2 ^ 63 ≤ digitsValue ds → Misspelled ds
  | below {ds : List Char} : Numeral.Digits ds → 2 ^ 63 < digitsValue ds → Misspelled ('-' :: ds)

theorem toDigits_eq_zero_cons {m : Nat} {ds : List Char} (h : Nat.toDigits 10 m = '0' :: ds) :
    m = 0 ∧ ds = [] := by
  have hdigits : Numeral.Digits ds := fun c hc =>
    digits_toDigits m c (h ▸ List.mem_cons_of_mem _ hc)
  have hvalue : digitsValue ds = m := by
    have hzero : digitsValue ('0' :: ds) = digitsValue ['0'] * 10 ^ ds.length + digitsValue ds :=
      Numeral.digitsValue_append ['0'] ds
    rw [← h, digitsValue_toDigits, digitsValue_eq_ofDigitChars ['0'],
      show Nat.ofDigitChars 10 ['0'] 0 = 0 from rfl, Nat.zero_mul, Nat.zero_add] at hzero
    exact hzero.symm
  by_cases hds : ds = []
  · rw [hds] at hvalue
    exact ⟨hvalue.symm, hds⟩
  · -- as many digits as there are after the zero would do
    have hshort := (Nat.length_toDigits_le_iff (by decide) (List.length_pos_of_ne_nil hds)).mpr
      (hvalue ▸ hdigits.value_lt)
    rw [h, List.length_cons] at hshort
    omega

theorem Misspelled.ne_spell {text : List Char} (h : Misspelled text) (n : Int64) :
    text ≠ spell n := by
  intro heq
  have hvalue := integerValue_spell n
  rw [← heq] at hvalue
  cases h with
  | zero hne _ =>
    rw [spell] at heq
    split at heq
    · cases heq
    · exact hne (toDigits_eq_zero_cons heq.symm).2
  | negativeZero hds =>
    rw [spell] at heq
    split at heq
    · have hzero := (toDigits_eq_zero_cons (List.cons.inj heq).2.symm).1
      omega
    · have hsign := digits_toDigits n.toInt.natAbs '-' (heq ▸ List.mem_cons_self)
      exact absurd hsign (by decide)
  | above hds hlarge =>
    have hrange := n.toInt_lt
    rw [integerValue_digits hds] at hvalue
    omega
  | below hds hlarge =>
    have hrange := n.le_toInt
    rw [integerValue] at hvalue
    omega

/-! ## Any parser of decimal numbers -/

/-- The reading of a decimal number by the program's own digits. -/
def readDecimal (text : List Char) : Option Binary64 :=
  (Decimal.ofText? text).map Decimal.toBinary64

/-- `number?` with a parser of decimal numbers. -/
def numberWith? (parse : List Char → Option Binary64) (text : List Char) : Option Value :=
  if !startsNumber text then none
  else if text.any isDecimalMark then ((parse text).filter Binary64.isFinite).map .decimal
  else (integer? text).map .integer

/-- `value` with a parser of decimal numbers. -/
def valueWith (parse : List Char → Option Binary64) (text : String) : Value :=
  let chars := text.toList
  let folded := String.ofList (chars.map Char.toLower)
  if folded = "null" then .null
  else if folded = "true" then .boolean true
  else if folded = "false" then .boolean false
  else (numberWith? parse chars).getD (.text text)

theorem decimal?_eq (text : List Char) :
    decimal? text = (readDecimal text).filter Binary64.isFinite := by
  rw [decimal?, readDecimal]
  cases Decimal.ofText? text <;> rfl

theorem value_eq : value = valueWith readDecimal := by
  funext text
  simp only [value, valueWith, number?, numberWith?, decimal?_eq]

theorem numberWith?_eq_some {parse : List Char → Option Binary64} {text : List Char} {v : Value} :
    numberWith? parse text = some v ↔
      (∃ n : Int64, text = spell n ∧ v = .integer n) ∨
      ∃ x, startsNumber text = true ∧ text.any isDecimalMark = true ∧ parse text = some x ∧
        x.isFinite = true ∧ v = .decimal x := by
  constructor
  · intro h
    unfold numberWith? at h
    split at h
    · cases h
    rename_i hstarts
    rw [Bool.not_eq_true, Bool.not_eq_false'] at hstarts
    split at h
    · rename_i hmark
      obtain ⟨x, hx, rfl⟩ := Option.map_eq_some_iff.mp h
      obtain ⟨hparse, hfinite⟩ := Option.filter_eq_some_iff.mp hx
      exact .inr ⟨x, hstarts, hmark, hparse, hfinite, rfl⟩
    · obtain ⟨n, hn, rfl⟩ := Option.map_eq_some_iff.mp h
      exact .inl ⟨n, integer?_eq_some.mp hn, rfl⟩
  · rintro (⟨n, rfl, rfl⟩ | ⟨x, hstarts, hmark, hparse, hfinite, rfl⟩)
    · obtain ⟨hstarts, hmark⟩ := spell_chars n
      rw [numberWith?, hstarts, hmark, integer?_eq_some.mpr rfl]
      rfl
    · rw [numberWith?, hstarts, hmark, hparse, Option.filter_some, hfinite]
      rfl

theorem valueWith_null {parse : List Char → Option Binary64} {text : String}
    (h : Caseless text.toList "null".toList) : valueWith parse text = .null :=
  if_pos ((folded_eq_iff "null" (by decide)).mpr h)

theorem valueWith_boolean {parse : List Char → Option Binary64} {text : String} {b : Bool}
    (h : Caseless text.toList (toString b).toList) : valueWith parse text = .boolean b := by
  cases b <;> simp only [valueWith, (folded_eq_iff _ (by decide)).mpr h] <;> rfl

theorem valueWith_number {parse : List Char → Option Binary64} {text : String} {v : Value}
    (h : numberWith? parse text.toList = some v) : valueWith parse text = v := by
  have hstarts : startsNumber text.toList = true := by
    by_contra hstarts
    rw [Bool.not_eq_true] at hstarts
    rw [numberWith?, hstarts] at h
    cases h
  have hword : ∀ (word : String) (d : Char) (rest : List Char), word.toList = d :: rest →
      word.toList.all Char.isLower = true → startsNumber [d] = false →
      startsNumber [d.toUpper] = false →
      String.ofList (text.toList.map Char.toLower) ≠ word := by
    intro word d rest hword hletters hlower hupper hfolded
    have hcaseless := (folded_eq_iff word hletters).mp hfolded
    rw [hword] at hcaseless
    exact absurd hstarts (by rw [hcaseless.startsNumber hlower hupper]; exact Bool.false_ne_true)
  have hnull := hword "null" 'n' ['u', 'l', 'l'] rfl (by decide) rfl rfl
  have htrue := hword "true" 't' ['r', 'u', 'e'] rfl (by decide) rfl rfl
  have hfalse := hword "false" 'f' ['a', 'l', 's', 'e'] rfl (by decide) rfl rfl
  simp only [valueWith, if_neg hnull, if_neg htrue, if_neg hfalse, h, Option.getD_some]

/-- All that a text can become, and of which texts. -/
theorem valueWith_cases (parse : List Char → Option Binary64) (text : String) :
    (Caseless text.toList "null".toList ∧ valueWith parse text = .null) ∨
    (∃ b : Bool, Caseless text.toList (toString b).toList ∧ valueWith parse text = .boolean b) ∨
    (∃ n : Int64, text = toString n ∧ valueWith parse text = .integer n) ∨
    (∃ x, (startsNumber text.toList = true ∧ text.toList.any isDecimalMark = true ∧
      parse text.toList = some x ∧ x.isFinite = true) ∧ valueWith parse text = .decimal x) ∨
    valueWith parse text = .text text := by
  by_cases hnull : Caseless text.toList "null".toList
  · exact .inl ⟨hnull, valueWith_null hnull⟩
  by_cases hbool : ∃ b : Bool, Caseless text.toList (toString b).toList
  · obtain ⟨b, hb⟩ := hbool
    exact .inr (.inl ⟨b, hb, valueWith_boolean hb⟩)
  refine .inr (.inr ?_)
  cases hnumber : numberWith? parse text.toList with
  | some v =>
    have hvalue := valueWith_number hnumber
    rcases numberWith?_eq_some.mp hnumber with
      ⟨n, hn, rfl⟩ | ⟨x, hstarts, hmark, hparse, hfinite, rfl⟩
    · exact .inl ⟨n, eq_spell_iff.mp hn, hvalue⟩
    · exact .inr (.inl ⟨x, ⟨hstarts, hmark, hparse, hfinite⟩, hvalue⟩)
  | none =>
    have hnull := mt (folded_eq_iff "null" (by decide)).mp hnull
    have htrue := mt (folded_eq_iff "true" (by decide)).mp fun h => hbool ⟨true, h⟩
    have hfalse := mt (folded_eq_iff "false" (by decide)).mp fun h => hbool ⟨false, h⟩
    refine .inr (.inr ?_)
    simp only [valueWith, if_neg hnull, if_neg htrue, if_neg hfalse, hnumber, Option.getD_none]

theorem valueWith_null_iff {parse : List Char → Option Binary64} {text : String} :
    valueWith parse text = .null ↔ Caseless text.toList "null".toList := by
  refine ⟨fun h => ?_, valueWith_null⟩
  rcases valueWith_cases parse text with
      ⟨hnull, hv⟩ | ⟨_, -, hv⟩ | ⟨_, -, hv⟩ | ⟨_, -, hv⟩ | hv <;>
    cases hv.symm.trans h
  exact hnull

theorem valueWith_boolean_iff {parse : List Char → Option Binary64} {text : String} {b : Bool} :
    valueWith parse text = .boolean b ↔ Caseless text.toList (toString b).toList := by
  refine ⟨fun h => ?_, valueWith_boolean⟩
  rcases valueWith_cases parse text with
      ⟨-, hv⟩ | ⟨_, hb, hv⟩ | ⟨_, -, hv⟩ | ⟨_, -, hv⟩ | hv <;>
    cases hv.symm.trans h
  exact hb

theorem valueWith_integer_iff {parse : List Char → Option Binary64} {text : String} {n : Int64} :
    valueWith parse text = .integer n ↔ text = toString n := by
  constructor
  · intro h
    rcases valueWith_cases parse text with
        ⟨-, hv⟩ | ⟨_, -, hv⟩ | ⟨_, hn, hv⟩ | ⟨_, -, hv⟩ | hv <;>
      cases hv.symm.trans h
    exact hn
  · intro hn
    exact valueWith_number (numberWith?_eq_some.mpr (.inl ⟨n, eq_spell_iff.mpr hn, rfl⟩))

theorem valueWith_decimal_iff {parse : List Char → Option Binary64} {text : String}
    {x : Binary64} :
    valueWith parse text = .decimal x ↔
      startsNumber text.toList = true ∧ text.toList.any isDecimalMark = true ∧
        parse text.toList = some x ∧ x.isFinite = true := by
  constructor
  · intro h
    rcases valueWith_cases parse text with
        ⟨-, hv⟩ | ⟨_, -, hv⟩ | ⟨_, -, hv⟩ | ⟨_, hx, hv⟩ | hv <;>
      cases hv.symm.trans h
    exact hx
  · rintro ⟨hstarts, hmark, hparse, hfinite⟩
    exact valueWith_number
      (numberWith?_eq_some.mpr (.inr ⟨x, hstarts, hmark, hparse, hfinite, rfl⟩))

/-! ## What a text becomes -/

/-- The decimal numbers among the texts, with the digits of an exponent read by `size`: from the
middle between the greatest binary64 number and `2 ^ 1024` on they are too large. -/
def InRange (size : List Char → Nat) (text : List Char) : Prop :=
  startsNumber text = true ∧ text.any isDecimalMark = true ∧
    ∃ n : Numeral, n.Spells text ∧ |n.denoted size| < 2 ^ 1024 - 2 ^ 970

/-- The parser takes the numerals among the texts with a mark and rounds them to the nearest
binary64 number, of two the even. Nothing is said about other texts. -/
structure ReadsNearest (size : List Char → Nat) (parse : List Char → Option Binary64) : Prop where
  accepts : ∀ text, startsNumber text = true → text.any isDecimalMark = true →
    ((parse text).isSome = true ↔ ∃ n : Numeral, n.Spells text)
  nearest : ∀ text, startsNumber text = true → text.any isDecimalMark = true →
    ∀ (n : Numeral) x, n.Spells text → parse text = some x →
      x.Nearest n.negative |n.denoted size|

/-- `v` is what `text` should become. -/
structure Classified (size : List Char → Nat) (text : String) (v : Value) : Prop where
  null : v = .null ↔ Caseless text.toList "null".toList
  boolean : ∀ b : Bool, v = .boolean b ↔ Caseless text.toList (toString b).toList
  integer : ∀ n : Int64, v = .integer n ↔ text = toString n
  misspelled : Misspelled text.toList → ∀ n, v ≠ .integer n
  decimal : (∃ x, v = .decimal x) ↔ InRange size text.toList
  rounded : ∀ x, v = .decimal x → x.isFinite = true ∧
    ∀ n : Numeral, n.Spells text.toList → x.Nearest n.negative |n.denoted size|
  otherwise : v = .null ∨ (∃ b, v = .boolean b) ∨ (∃ n, v = .integer n) ∨ (∃ x, v = .decimal x) ∨
    v = .text text

theorem ReadsNearest.classified {size : List Char → Nat} {parse : List Char → Option Binary64}
    (h : ReadsNearest size parse) (text : String) :
    Classified size text (valueWith parse text) where
  null := valueWith_null_iff
  boolean _ := valueWith_boolean_iff
  integer _ := valueWith_integer_iff
  misspelled hbad n hv := hbad.ne_spell n (eq_spell_iff.mpr (valueWith_integer_iff.mp hv))
  decimal := by
    constructor
    · rintro ⟨x, hx⟩
      obtain ⟨hstarts, hmark, hparse, hfinite⟩ := valueWith_decimal_iff.mp hx
      obtain ⟨n, hn⟩ := (h.accepts _ hstarts hmark).mp (by rw [hparse]; rfl)
      have hnearest := h.nearest _ hstarts hmark n x hn hparse
      exact ⟨hstarts, hmark, n, hn, hnearest.isFinite_iff.mp hfinite⟩
    · rintro ⟨hstarts, hmark, n, hn, hrange⟩
      obtain ⟨x, hparse⟩ := Option.isSome_iff_exists.mp ((h.accepts _ hstarts hmark).mpr ⟨n, hn⟩)
      have hfinite := (h.nearest _ hstarts hmark n x hn hparse).isFinite_iff.mpr hrange
      exact ⟨x, valueWith_decimal_iff.mpr ⟨hstarts, hmark, hparse, hfinite⟩⟩
  rounded x hx := by
    obtain ⟨hstarts, hmark, hparse, hfinite⟩ := valueWith_decimal_iff.mp hx
    exact ⟨hfinite, fun n hn => h.nearest _ hstarts hmark n x hn hparse⟩
  otherwise := by
    rcases valueWith_cases parse text with
      ⟨-, hv⟩ | ⟨b, -, hv⟩ | ⟨n, -, hv⟩ | ⟨x, -, hv⟩ | hv
    · exact .inl hv
    · exact .inr (.inl ⟨b, hv⟩)
    · exact .inr (.inr (.inl ⟨n, hv⟩))
    · exact .inr (.inr (.inr (.inl ⟨x, hv⟩)))
    · exact .inr (.inr (.inr (.inr hv)))

/-- A parser that rounds the number of the numeral, if there is one, reads to the nearest. -/
theorem readsNearest_decimal (size : List Char → Nat) :
    ReadsNearest size fun text =>
      (Numeral.ofText? text).map fun n => (n.decimal size).toBinary64 where
  accepts text _ _ := by
    rw [Option.isSome_map, Option.isSome_iff_exists]
    exact exists_congr fun n => Numeral.ofText?_eq_some
  nearest text _ _ n x hn hparse := by
    rw [Numeral.ofText?_eq_some.mpr hn] at hparse
    cases hparse
    exact n.nearest_decimal size

theorem readDecimal_eq : readDecimal = fun text =>
    (Numeral.ofText? text).map fun n => (n.decimal exponentSize).toBinary64 := by
  funext text
  rw [readDecimal, Numeral.decimal_ofText?, Option.map_map]
  rfl

theorem Classified.congr {size size' : List Char → Nat} {text : String} {v : Value}
    (h : Classified size text v)
    (hsize : ∀ n : Numeral, n.Spells text.toList → size n.exponent = size' n.exponent) :
    Classified size' text v := by
  have hdenoted : ∀ n : Numeral, n.Spells text.toList → n.denoted size = n.denoted size' := by
    intro n hn
    rw [Numeral.denoted, Numeral.denoted, hsize n hn]
  have hrange : InRange size text.toList ↔ InRange size' text.toList := by
    refine and_congr_right' (and_congr_right' (exists_congr fun n => and_congr_right fun hn => ?_))
    rw [hdenoted n hn]
  refine ⟨h.null, h.boolean, h.integer, h.misspelled, h.decimal.trans hrange, ?_, h.otherwise⟩
  intro x hx
  obtain ⟨hfinite, hnearest⟩ := h.rounded x hx
  exact ⟨hfinite, fun n hn => hdenoted n hn ▸ hnearest n hn⟩

/-- **Every text is classified.** By its exact number, with any parser that reads it to the nearest.
The parser that runs reads the digits of an exponent by `exponentSize`, which is their number for
every exponent below the limit. -/
theorem value_classified :
    (∀ parse, ReadsNearest digitsValue parse →
      ∀ text, Classified digitsValue text (valueWith parse text)) ∧
    (value = valueWith readDecimal ∧ ∀ text, Classified exponentSize text (value text)) ∧
    ∀ text, (∀ n : Numeral, n.Spells text.toList → digitsValue n.exponent < exponentLimit) →
      Classified digitsValue text (value text) := by
  have hvalue : ∀ text, Classified exponentSize text (value text) := by
    intro text
    have hread := readsNearest_decimal exponentSize
    rw [← readDecimal_eq] at hread
    rw [value_eq]
    exact hread.classified text
  refine ⟨fun parse h => h.classified, ⟨value_eq, hvalue⟩, ?_⟩
  intro text hlimit
  exact (hvalue text).congr fun n hn => exponentSize_of_lt (hlimit n hn)

/-- Read to the nearest, `-2.5e3` is the decimal number `-2500`. -/
theorem value_classified_decimal :
    let parse := fun text => (Numeral.ofText? text).map fun n => (n.decimal digitsValue).toBinary64
    valueWith parse "-2.5e3" = .decimal ⟨0xC0A3880000000000⟩ ∧
      InRange digitsValue "-2.5e3".toList := by
  intro parse
  have hvalue : valueWith parse "-2.5e3" = .decimal ⟨0xC0A3880000000000⟩ :=
    valueWith_decimal_iff.mpr ⟨by decide, by decide, by decide +kernel, by decide⟩
  exact ⟨hvalue, (value_classified.1 parse (readsNearest_decimal digitsValue) "-2.5e3").decimal.mp
    ⟨_, hvalue⟩⟩

end Literal
end LaxJson
