import LaxJson.Scanner.Unread

/-!
# LaxJson.Scanner.Blank

Blanks: the characters up to the space. Between two pieces of a text they mean nothing, and around
an unquoted piece they are cut off.
-/

namespace LaxJson

/-- Blanks are the characters up to the space. -/
def isBlank (c : Char) : Bool := c ≤ ' '

/-- The characters from the first to the last that is no blank. -/
def trimBlanks (cs : List Char) : List Char :=
  ((cs.dropWhile isBlank).reverse.dropWhile isBlank).reverse

namespace Scanner

variable {σ : Type} [CharSource σ]

/-- The next character past any blanks, or the end mark. -/
def nextSolid [FiniteSource σ] (s : Scanner σ) : Except Failure Char × Scanner σ :=
  match _h : s.next with
  | (.error e, s1) => (.error e, s1)
  | (.ok c, s1) =>
    if _hc : c = endMark ∨ isBlank c = false then (.ok c, s1) else nextSolid s1
termination_by s.unread
decreasing_by exact (next_took _h).lt (fun h => _hc (.inl h))

theorem nextSolid_eq [FiniteSource σ] (s : Scanner σ) :
    s.nextSolid =
      match s.next with
      | (.error e, s1) => (.error e, s1)
      | (.ok c, s1) => if c = endMark ∨ isBlank c = false then (.ok c, s1) else s1.nextSolid := by
  rw [nextSolid]
  split <;> rename_i h
  · simp only [h]
  · simp only [h]
    split <;> rfl

theorem nextSolid_took [FiniteSource σ] {s s' : Scanner σ} {c : Char}
    (h : s.nextSolid = (.ok c, s')) : Took s c s' := by
  fun_induction nextSolid s with
  | case1 => cases h
  | case2 s d s1 hn _ => cases h; exact next_took hn
  | case3 s d s1 hn _ ih => exact (ih h).trans (next_took hn).le

end Scanner

end LaxJson
