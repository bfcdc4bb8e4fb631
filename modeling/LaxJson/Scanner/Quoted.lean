import LaxJson.Scanner.Unread
import LaxJson.Utf16

/-!
# LaxJson.Scanner.Quoted

Quoted strings. An escape stands for a character or, in the form `\uXXXX`, for a UTF-16 code unit;
units and characters together make up the string.
-/

namespace LaxJson

/-- What an escape stands for. -/
inductive Escaped where
  | char (c : Char)
  | unit (u : Nat)

/-- The escapes of one letter. -/
def simpleEscape? : Char → Option Char
  | 'b' => some '\x08'
  | 't' => some '\t'
  | 'n' => some '\n'
  | 'f' => some '\x0c'
  | 'r' => some '\r'
  | '"' => some '"'
  | '\'' => some '\''
  | '\\' => some '\\'
  | '/' => some '/'
  | _ => none

/-- The value of a hexadecimal digit of either case. -/
def hexDigit? (c : Char) : Option Nat :=
  if '0' ≤ c ∧ c ≤ '9' then some (c.toNat - '0'.toNat)
  else if 'a' ≤ c ∧ c ≤ 'f' then some (c.toNat - 'a'.toNat + 10)
  else if 'A' ≤ c ∧ c ≤ 'F' then some (c.toNat - 'A'.toNat + 10)
  else none

/-- The number that hexadecimal digits denote after `n`, if they all are digits. -/
def hexValue? (n : Nat) : List Char → Option Nat
  | [] => some n
  | c :: rest =>
    match hexDigit? c with
    | some d => hexValue? (n * 16 + d) rest
    | none => none

def Utf16.Builder.pushEscaped (b : Utf16.Builder) : Escaped → Utf16.Builder
  | .char c => b.push c
  | .unit u => b.pushUnit u

namespace Scanner

variable {σ : Type} [CharSource σ]

/-- The rest of an escape, after its backslash. -/
def escape (s : Scanner σ) : Except Failure Escaped × Scanner σ :=
  match s.next with
  | (.error e, s1) => (.error e, s1)
  | (.ok c, s1) =>
    if c = 'u' then
      match s1.take 4 with
      | (.error e, s2) => (.error e, s2)
      | (.ok digits, s2) =>
        match hexValue? 0 digits.toList with
        | some u => (.ok (.unit u), s2)
        | none => s2.fail .illegalEscape
    else
      match simpleEscape? c with
      | some d => (.ok (.char d), s1)
      | none => s1.fail .illegalEscape

theorem unread_takeFrom [FiniteSource σ] {s s' : Scanner σ} {text : List Char} {n : Nat}
    {t : String} (h : s.takeFrom text n = (.ok t, s')) : s'.unread ≤ s.unread := by
  induction n generalizing s text with
  | zero => cases h; exact Nat.le_refl _
  | succ n ih =>
    simp only [takeFrom] at h
    split at h
    · cases h
    · rename_i hn
      split at h
      · cases h
      · exact Nat.le_trans (ih h) (next_took hn).le

theorem unread_take [FiniteSource σ] {s s' : Scanner σ} {n : Nat} {t : String}
    (h : s.take n = (.ok t, s')) : s'.unread ≤ s.unread := by
  unfold take at h
  split at h
  · cases h
  · exact unread_takeFrom h

theorem unread_escape [FiniteSource σ] {s s' : Scanner σ} {x : Escaped}
    (h : s.escape = (.ok x, s')) : s'.unread ≤ s.unread := by
  unfold escape at h
  split at h
  · cases h
  · rename_i c s1 hn
    have hle := (next_took hn).le
    split at h
    · split at h
      · cases h
      · rename_i ht
        have := unread_take ht
        split at h <;> cases h
        omega
    · split at h <;> cases h
      exact hle

/-- Reads to the closing `quote` and adds to `built`. -/
def quotedFrom [FiniteSource σ] (quote : Char) (built : Utf16.Builder) (s : Scanner σ) :
    Except Failure String × Scanner σ :=
  match _h : s.next with
  | (.error e, s1) => (.error e, s1)
  | (.ok c, s1) =>
    if _hc : c = endMark then
      s1.fail .unterminatedString
    else if c = '\\' then
      match _he : s1.escape with
      | (.error e, s2) => (.error e, s2)
      | (.ok x, s2) => quotedFrom quote (built.pushEscaped x) s2
    else if c = quote then
      (.ok built.finish, s1)
    else
      quotedFrom quote (built.push c) s1
termination_by s.unread
decreasing_by
  · exact Nat.lt_of_le_of_lt (unread_escape _he) ((next_took _h).lt _hc)
  · exact (next_took _h).lt _hc

theorem quotedFrom_eq [FiniteSource σ] (quote : Char) (built : Utf16.Builder) (s : Scanner σ) :
    quotedFrom quote built s =
      match s.next with
      | (.error e, s1) => (.error e, s1)
      | (.ok c, s1) =>
        if c = endMark then s1.fail .unterminatedString
        else if c = '\\' then
          match s1.escape with
          | (.error e, s2) => (.error e, s2)
          | (.ok x, s2) => quotedFrom quote (built.pushEscaped x) s2
        else if c = quote then (.ok built.finish, s1)
        else quotedFrom quote (built.push c) s1 := by
  rw [quotedFrom]
  split <;> rename_i h
  · simp only [h]
  · simp only [h]
    split
    · rfl
    · split
      · split <;> rename_i he <;> simp only [he]
      · rfl

/-- The string up to the closing `quote`; the opening one has been read. -/
def quoted [FiniteSource σ] (s : Scanner σ) (quote : Char) : Except Failure String × Scanner σ :=
  quotedFrom quote .empty s

theorem unread_quotedFrom [FiniteSource σ] {quote : Char} {built : Utf16.Builder}
    {s s' : Scanner σ} {t : String} (h : quotedFrom quote built s = (.ok t, s')) :
    s'.unread ≤ s.unread := by
  fun_induction quotedFrom quote built s with
  | case1 => cases h
  | case2 => cases h
  | case3 => cases h
  | case4 b s s1 x s2 he hn _ ih =>
    exact Nat.le_trans (ih h) (Nat.le_trans (unread_escape he) (next_took hn).le)
  | case5 b s s1 hn => cases h; exact (next_took hn).le
  | case6 b s c s1 hn _ _ _ ih => exact Nat.le_trans (ih h) (next_took hn).le

theorem unread_quoted [FiniteSource σ] {quote : Char} {s s' : Scanner σ} {t : String}
    (h : s.quoted quote = (.ok t, s')) : s'.unread ≤ s.unread :=
  unread_quotedFrom h

end Scanner

end LaxJson
