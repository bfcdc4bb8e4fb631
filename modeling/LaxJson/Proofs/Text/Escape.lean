import LaxJson.Failure
import LaxJson.Scanner.Quoted
import Mathlib.Data.List.Basic
import Mathlib.Data.List.Nodup

/-!
# LaxJson.Proofs.Text.Escape

Strings as diagnostics show them, between double quotes.

* `hexValue?_toDigits`: hexadecimal digits say which number they are the digits of.
* `Shown`: what stands for one character, by a table of short forms, by its code point, or itself.
* `debugForm_iff`: `quotedString` gives the debug form of a string, which is made of these.
* `DebugForm.inj`: a string can be told from its debug form, so that a message names one key.
-/

namespace LaxJson

/-! ## Hexadecimal digits -/

theorem hexValue?_append (n : Nat) (ds es : List Char) :
    hexValue? n (ds ++ es) = (hexValue? n ds).bind fun m => hexValue? m es := by
  induction ds generalizing n with
  | nil => rfl
  | cons c ds ih =>
    rw [List.cons_append, hexValue?, hexValue?]
    cases hexDigit? c with
    | none => rfl
    | some d => exact ih _

/-- The digits of a number read back as it. -/
theorem hexValue?_toDigits (n : Nat) : hexValue? 0 (Nat.toDigits 16 n) = some n := by
  have hdigit : ∀ m < 16, ∀ k, hexValue? k [Nat.digitChar m] = some (k * 16 + m) := by
    intro m hm k
    have hvalue := (by decide : ∀ m < 16, hexDigit? (Nat.digitChar m) = some m) m hm
    simp only [hexValue?, hvalue]
  induction n using Nat.strongRecOn with
  | ind n ih =>
    rw [Nat.toDigits_eq_if (by decide)]
    split
    · rename_i hn
      rw [hdigit n hn 0, Nat.zero_mul, Nat.zero_add]
    · have hlt : n / 16 < n := by omega
      rw [hexValue?_append, ih _ hlt, Option.bind_some, hdigit _ (Nat.mod_lt n (by decide)),
        Nat.div_add_mod']

namespace Escape

/-! ## The debug form -/

/-- Characters that are escaped by a letter, and the letters. -/
def shortForms : List (Char × Char) :=
  [('\x00', '0'), ('\t', 't'), ('\r', 'r'), ('\n', 'n'), ('\\', '\\'), ('"', '"')]

/-- What stands for the character between double quotes. A hidden character without a short form is
written by its code point, in hexadecimal digits of lower case, without zeros in front. -/
inductive Shown : Char → List Char → Prop where
  | short {c letter : Char} : (c, letter) ∈ shortForms → Shown c ['\\', letter]
  | codePoint {c : Char} : c ∉ shortForms.map Prod.fst → Hidden c →
    Shown c ('\\' :: 'u' :: '\x7b' :: (Nat.toDigits 16 c.toNat ++ ['\x7d']))
  | plain {c : Char} : c ∉ shortForms.map Prod.fst → ¬ Hidden c → Shown c [c]

/-- What stands for the characters, one after the other. -/
inductive ShownAll : List Char → List Char → Prop where
  | nil : ShownAll [] []
  | cons {c : Char} {cs w t : List Char} : Shown c w → ShownAll cs t → ShownAll (c :: cs) (w ++ t)

/-- The debug form of the string `s` is `t`. -/
def DebugForm (s t : String) : Prop :=
  ∃ w, ShownAll s.toList w ∧ t.toList = '"' :: (w ++ ['"'])

variable {c d letter : Char} {cs ds v w x y : List Char} {s s' t : String}

theorem char_short (h : (c, letter) ∈ shortForms) : char ['"'] c = ['\\', letter] := by
  simp only [shortForms, List.mem_cons, Prod.mk.injEq, List.not_mem_nil, or_false] at h
  rcases h with ⟨rfl, rfl⟩ | ⟨rfl, rfl⟩ | ⟨rfl, rfl⟩ | ⟨rfl, rfl⟩ | ⟨rfl, rfl⟩ | ⟨rfl, rfl⟩ <;> rfl

theorem char_long (h : c ∉ shortForms.map Prod.fst) :
    char ['"'] c = if isVisible c then [c] else byCodePoint c := by
  simp only [shortForms, List.map_cons, List.map_nil, List.mem_cons, List.not_mem_nil, or_false,
    not_or] at h
  obtain ⟨hnull, htab, hreturn, hfeed, hbackslash, hquote⟩ := h
  have hquotes : ['"'].contains c = false := by
    rw [List.contains_eq_mem, decide_eq_false_iff_not, List.mem_singleton]
    exact hquote
  rw [char, if_neg hnull, if_neg htab, if_neg hreturn, if_neg hfeed, if_neg hbackslash, hquotes,
    if_neg Bool.false_ne_true]

theorem shown_iff : Shown c w ↔ w = char ['"'] c := by
  constructor
  · intro h
    cases h with
    | short hshort => exact (char_short hshort).symm
    | codePoint hlong hhidden =>
      have hinvisible := mt isVisible_iff.mp (not_not.mpr hhidden)
      rw [char_long hlong, if_neg hinvisible, byCodePoint]
    | plain hlong hvisible => rw [char_long hlong, if_pos (isVisible_iff.mpr hvisible)]
  · rintro rfl
    by_cases hshort : c ∈ shortForms.map Prod.fst
    · obtain ⟨⟨c, letter⟩, hmem, rfl⟩ := List.mem_map.mp hshort
      rw [char_short hmem]
      exact .short hmem
    · rw [char_long hshort]
      split
      · exact .plain hshort (isVisible_iff.mp ‹_›)
      · exact .codePoint hshort (not_not.mp (mt isVisible_iff.mpr ‹_›))

theorem shownAll_iff : ShownAll cs w ↔ w = cs.flatMap (char ['"']) := by
  constructor
  · intro h
    induction h with
    | nil => rfl
    | cons hc _ ih => rw [List.flatMap_cons, ← shown_iff.mp hc, ih]
  · rintro rfl
    induction cs with
    | nil => exact .nil
    | cons c cs ih => exact .cons (shown_iff.mpr rfl) ih

/-- A string is quoted in its debug form. -/
theorem debugForm_iff : DebugForm s t ↔ t = quotedString s := by
  have hquoted : (quotedString s).toList = '"' :: (s.toList.flatMap (char ['"']) ++ ['"']) := by
    simp [quotedString]
  rw [← String.toList_inj, hquoted, DebugForm]
  simp only [shownAll_iff, exists_eq_left]

/-- A quote, an accent that combines with what stands before it, and a line feed. -/
example : quotedString "a\"\u0301\n" = "\"a\\\"\\u\x7b301\x7d\\n\"" := by
  decide +kernel

/-! ## What is shown can be told from it -/

theorem brace_not_mem_toDigits (n : Nat) : '\x7d' ∉ Nat.toDigits 16 n := by
  induction n using Nat.strongRecOn with
  | ind n ih =>
    rw [Nat.toDigits_eq_if (by decide)]
    split
    · rw [List.mem_singleton]
      exact (Nat.digitChar_ne '\x7d' (by decide)).symm
    · rw [List.mem_append, List.mem_singleton, not_or]
      exact ⟨ih _ (by omega), (Nat.digitChar_ne '\x7d' (by decide)).symm⟩

/-- Digits that a brace ends are those of one number. -/
theorem toDigits_cancel {m n : Nat}
    (h : Nat.toDigits 16 m ++ '\x7d' :: x = Nat.toDigits 16 n ++ '\x7d' :: y) : m = n ∧ x = y := by
  have hlength := congrArg (List.idxOf '\x7d') h
  rw [List.idxOf_append_of_notMem (brace_not_mem_toDigits m), List.idxOf_cons_self,
    List.idxOf_append_of_notMem (brace_not_mem_toDigits n), List.idxOf_cons_self] at hlength
  obtain ⟨hdigits, hrest⟩ := List.append_inj h (Nat.add_right_cancel hlength)
  have hvalue := congrArg (hexValue? 0) hdigits
  rw [hexValue?_toDigits, hexValue?_toDigits, Option.some.injEq] at hvalue
  exact ⟨hvalue, (List.cons.inj hrest).2⟩

theorem mem_shortForms_inj {e : Char} (hc : (c, e) ∈ shortForms) (hd : (d, e) ∈ shortForms) :
    c = d := by
  have hletters : (shortForms.map Prod.snd).Nodup := by decide
  exact congrArg Prod.fst (List.inj_on_of_nodup_map hletters hc hd rfl)

theorem codePoint_not_short : (c, 'u') ∉ shortForms := by
  intro h
  have hletter : 'u' ∈ shortForms.map Prod.snd := List.mem_map_of_mem h
  exact absurd hletter (by decide)

theorem backslash_short : '\\' ∈ shortForms.map Prod.fst := by decide

/-- Only one character is shown at the start of a text. -/
theorem Shown.cancel (hc : Shown c v) (hd : Shown d w) (h : v ++ x = w ++ y) : c = d ∧ x = y := by
  cases hc with
  | short hc =>
    cases hd with
    | short hd =>
      obtain ⟨-, h⟩ := List.cons.inj h
      obtain ⟨rfl, hrest⟩ := List.cons.inj h
      exact ⟨mem_shortForms_inj hc hd, hrest⟩
    | codePoint =>
      obtain ⟨-, h⟩ := List.cons.inj h
      obtain ⟨rfl, -⟩ := List.cons.inj h
      exact absurd hc codePoint_not_short
    | plain hd =>
      obtain ⟨rfl, -⟩ := List.cons.inj h
      exact absurd backslash_short hd
  | codePoint =>
    cases hd with
    | short hd =>
      obtain ⟨-, h⟩ := List.cons.inj h
      obtain ⟨rfl, -⟩ := List.cons.inj h
      exact absurd hd codePoint_not_short
    | codePoint =>
      simp only [List.cons_append, List.append_assoc, List.nil_append, List.cons.injEq,
        true_and] at h
      obtain ⟨hvalue, hrest⟩ := toDigits_cancel h
      exact ⟨Char.toNat_inj.mp hvalue, hrest⟩
    | plain hd =>
      obtain ⟨rfl, -⟩ := List.cons.inj h
      exact absurd backslash_short hd
  | plain hc =>
    cases hd with
    | short | codePoint =>
      obtain ⟨rfl, -⟩ := List.cons.inj h
      exact absurd backslash_short hc
    | plain =>
      obtain ⟨rfl, hrest⟩ := List.cons.inj h
      exact ⟨rfl, hrest⟩

theorem Shown.ne_nil (h : Shown c w) : w ≠ [] := by
  cases h <;> exact List.cons_ne_nil _ _

theorem ShownAll.inj (hcs : ShownAll cs w) (hds : ShownAll ds w) : cs = ds := by
  induction hcs generalizing ds with
  | nil =>
    generalize hw : ([] : List Char) = w at hds
    cases hds with
    | nil => rfl
    | cons hd _ => exact absurd (List.append_eq_nil_iff.mp hw.symm).1 hd.ne_nil
  | @cons c cs v t hc _ ih =>
    generalize hw : v ++ t = w at hds
    cases hds with
    | nil => exact absurd (List.append_eq_nil_iff.mp hw).1 hc.ne_nil
    | cons hd hrest =>
      obtain ⟨rfl, rfl⟩ := hc.cancel hd hw
      rw [ih hrest]

/-- No other string has the same debug form. -/
theorem DebugForm.inj (h : DebugForm s t) (h' : DebugForm s' t) : s = s' := by
  obtain ⟨w, hw, ht⟩ := h
  obtain ⟨w', hw', ht'⟩ := h'
  obtain rfl : w = w' := by
    rw [ht, List.cons.injEq] at ht'
    exact List.append_cancel_right ht'.2
  exact String.toList_inj.mp (hw.inj hw')

end Escape

/-- The message about a repeated key says which key it was. -/
theorem Fault.duplicateKey_message_inj {key key' : String} :
    (duplicateKey key).message = (duplicateKey key').message ↔ key = key' := by
  constructor
  · intro h
    have hlist : ("duplicate key " ++ Escape.quotedString key).toList =
      ("duplicate key " ++ Escape.quotedString key').toList := congrArg String.toList h
    rw [String.toList_append, String.toList_append] at hlist
    have hquoted := String.toList_inj.mp (List.append_cancel_left hlist)
    exact (Escape.debugForm_iff.mpr rfl).inj (Escape.debugForm_iff.mpr hquoted)
  · rintro rfl
    rfl

end LaxJson
