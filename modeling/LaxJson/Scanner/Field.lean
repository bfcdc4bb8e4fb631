import LaxJson.Scanner.Blank

/-!
# LaxJson.Scanner.Field

Unquoted pieces of text: a field up to a delimiter or the end of the line, and a bare literal up
to the first character that cannot be part of one. Either way the character that ends the piece is
put back, and blanks around the piece are cut off.
-/

namespace LaxJson
namespace Scanner

variable {σ : Type} [CharSource σ]

/-- Reads a field; `text` holds what came before, newest first. The end of the input ends the field
and stays read. -/
def fieldFrom [FiniteSource σ] (isDelimiter : Char → Bool) (text : List Char) (s : Scanner σ) :
    Except Failure String × Scanner σ :=
  match _h : s.next with
  | (.error e, s1) => (.error e, s1)
  | (.ok c, s1) =>
    if _hc : c = endMark then
      (.ok (String.ofList (trimBlanks text.reverse)), s1)
    else if c = '\n' ∨ c = '\r' ∨ isDelimiter c then
      match s1.stepBack with
      | (.error e, s2) => (.error e, s2)
      | (.ok (), s2) => (.ok (String.ofList (trimBlanks text.reverse)), s2)
    else
      fieldFrom isDelimiter (c :: text) s1
termination_by s.unread
decreasing_by exact (next_took _h).lt _hc

theorem fieldFrom_eq [FiniteSource σ] (isDelimiter : Char → Bool) (text : List Char)
    (s : Scanner σ) :
    fieldFrom isDelimiter text s =
      match s.next with
      | (.error e, s1) => (.error e, s1)
      | (.ok c, s1) =>
        if c = endMark then (.ok (String.ofList (trimBlanks text.reverse)), s1)
        else if c = '\n' ∨ c = '\r' ∨ isDelimiter c then
          match s1.stepBack with
          | (.error e, s2) => (.error e, s2)
          | (.ok (), s2) => (.ok (String.ofList (trimBlanks text.reverse)), s2)
        else fieldFrom isDelimiter (c :: text) s1 := by
  rw [fieldFrom]
  split <;> rename_i h
  · simp only [h]
  · simp only [h]
    split <;> rfl

/-- The field before the next `delimiter` or line end. -/
def fieldTo [FiniteSource σ] (s : Scanner σ) (delimiter : Char) :
    Except Failure String × Scanner σ :=
  fieldFrom (fun c => c = delimiter) [] s

/-- The field before the next character of `delimiters` or line end. -/
def fieldToAny [FiniteSource σ] (s : Scanner σ) (delimiters : String) :
    Except Failure String × Scanner σ :=
  fieldFrom (fun c => delimiters.toList.contains c) [] s

/-- The characters that a bare literal cannot contain, controls aside. -/
def reserved : List Char :=
  [',', ':', ']', '\x7d', '/', '\\', '"', '[', '\x7b', ';', '=', '#']

def endsBare (c : Char) : Bool := c < ' ' || reserved.contains c

/-- Reads a bare literal; `text` holds what came before, newest first. -/
def bareFrom [FiniteSource σ] (text : List Char) (s : Scanner σ) :
    Except Failure String × Scanner σ :=
  match _h : s.next with
  | (.error e, s1) => (.error e, s1)
  | (.ok c, s1) =>
    if _hc : endsBare c then
      match s1.stepBack with
      | (.error e, s2) => (.error e, s2)
      | (.ok (), s2) => (.ok (String.ofList (trimBlanks text.reverse)), s2)
    else
      bareFrom (c :: text) s1
termination_by s.unread
decreasing_by exact (next_took _h).lt (fun hc => _hc (by subst hc; rfl))

theorem bareFrom_eq [FiniteSource σ] (text : List Char) (s : Scanner σ) :
    bareFrom text s =
      match s.next with
      | (.error e, s1) => (.error e, s1)
      | (.ok c, s1) =>
        if endsBare c then
          match s1.stepBack with
          | (.error e, s2) => (.error e, s2)
          | (.ok (), s2) => (.ok (String.ofList (trimBlanks text.reverse)), s2)
        else bareFrom (c :: text) s1 := by
  rw [bareFrom]
  split <;> rename_i h
  · simp only [h]
  · simp only [h]
    split <;> rfl

def bare [FiniteSource σ] (s : Scanner σ) : Except Failure String × Scanner σ := bareFrom [] s

theorem unread_bareFrom [FiniteSource σ] {text : List Char} {s s' : Scanner σ} {t : String}
    (h : bareFrom text s = (.ok t, s')) :
    s'.unread < s.unread ∨
      (s'.unread ≤ s.unread ∧ t = String.ofList (trimBlanks text.reverse)) := by
  fun_induction bareFrom text s with
  | case1 => cases h
  | case2 => cases h
  | case3 text s c s1 hn hc s2 hb =>
    cases h
    exact .inr ⟨unread_stepBack (next_took hn) hb, rfl⟩
  | case4 text s c s1 hn hc ih =>
    have hlt := (next_took hn).lt (fun h => hc (by subst h; rfl))
    left
    rcases ih h with h' | ⟨h', -⟩ <;> omega

/-- A bare literal that is not empty has used something up. -/
theorem unread_bare [FiniteSource σ] {s s' : Scanner σ} {t : String}
    (h : s.bare = (.ok t, s')) (ht : t ≠ "") : s'.unread < s.unread := by
  rcases unread_bareFrom h with h' | ⟨-, rfl⟩
  · exact h'
  · exact absurd rfl ht

end Scanner

end LaxJson
