import LaxJson.Scanner.Unread

/-!
# LaxJson.Scanner.Seek

Skipping ahead to a character. The source is marked first, so that a search that reaches the end
of the input can be undone: source and cursor go back to where they were. A search that fails in a
read or a reset stays where it failed.
-/

namespace LaxJson
namespace Scanner

variable {σ : Type} [CharSource σ]

/-- How many characters a search may pass and still be undone by any source. -/
def seekLimit : Nat := 1000000

/-- Reads up to `target` or the end of the input; `origin` is the cursor to return to. -/
def seekFrom [FiniteSource σ] (target : Char) (origin : Cursor) (s : Scanner σ) :
    Except Failure Char × Scanner σ :=
  match _h : s.next with
  | (.error e, s1) => (.error e, s1)
  | (.ok c, s1) =>
    if _hc : c = endMark then
      match CharSource.reset s1.source with
      | (.error e, source) => (.error (.source e), { s1 with source := source })
      | (.ok (), source) =>
        (.ok endMark, { s1 with source := CharSource.unmark source, cursor := origin })
    else if c = target then
      match { s1 with source := CharSource.unmark s1.source }.stepBack with
      | (.error e, s2) => (.error e, s2)
      | (.ok (), s2) => (.ok target, s2)
    else
      seekFrom target origin s1
termination_by s.unread
decreasing_by exact (next_took _h).lt _hc

theorem seekFrom_eq [FiniteSource σ] (target : Char) (origin : Cursor) (s : Scanner σ) :
    seekFrom target origin s =
      match s.next with
      | (.error e, s1) => (.error e, s1)
      | (.ok c, s1) =>
        if c = endMark then
          match CharSource.reset s1.source with
          | (.error e, source) => (.error (.source e), { s1 with source := source })
          | (.ok (), source) =>
            (.ok endMark, { s1 with source := CharSource.unmark source, cursor := origin })
        else if c = target then
          match { s1 with source := CharSource.unmark s1.source }.stepBack with
          | (.error e, s2) => (.error e, s2)
          | (.ok (), s2) => (.ok target, s2)
        else seekFrom target origin s1 := by
  rw [seekFrom]
  split <;> rename_i h
  · simp only [h]
  · simp only [h]
    split <;> rfl

/-- Moves to just before the next `target` and answers it; if the input ends first nothing is
consumed and the answer is the end mark. -/
def seek [FiniteSource σ] (s : Scanner σ) (target : Char) : Except Failure Char × Scanner σ :=
  match CharSource.mark s.source seekLimit with
  | (.error e, source) => (.error (.source e), { s with source := source })
  | (.ok (), source) => seekFrom target s.cursor { s with source := source }

end Scanner

end LaxJson
