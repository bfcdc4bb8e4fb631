import LaxJson.Scanner.Basic

/-!
# LaxJson.Scanner.Unread

`Scanner.unread` bounds the characters that can still be read, pushback included. `next_took` and
`unread_stepBack` say how the two primitive operations move it; every loop over a scanner ends by
them.
-/

namespace LaxJson
namespace Scanner

variable {σ : Type} [CharSource σ] [FiniteSource σ]

/-- Reading the end mark uses nothing up, any other character one. -/
def weight (c : Char) : Nat := if c = endMark then 0 else 1

theorem weight_of_ne {c : Char} (h : c ≠ endMark) : weight c = 1 := by simp [weight, h]

def pendingWeight (k : Cursor) : Nat :=
  match k.pending with
  | some c => weight c
  | none => 0

/-- A bound on the characters that can still be read before an end mark is all there is. -/
def unread (s : Scanner σ) : Nat :=
  FiniteSource.size s.source + pendingWeight s.cursor

/-- The scanner `s'` is `s` after `c` was read, and perhaps characters before it. -/
structure Took (s : Scanner σ) (c : Char) (s' : Scanner σ) : Prop where
  previous : s'.cursor.previous = c
  pending : s'.cursor.pending = none
  unread : s'.unread + weight c ≤ s.unread

theorem next_took {s s' : Scanner σ} {c : Char} (h : s.next = (.ok c, s')) : Took s c s' := by
  obtain ⟨source, cursor, options, depth⟩ := s
  simp only [next] at h
  split at h
  · rename_i d hp
    cases h
    exact ⟨rfl, rfl, by simp [Scanner.unread, pendingWeight, hp, Cursor.advance]⟩
  · rename_i hp
    split at h
    · cases h
    · rename_i answer source' hr
      cases h
      refine ⟨rfl, rfl, ?_⟩
      simp only [Scanner.unread, pendingWeight, hp, Cursor.advance, Nat.add_zero]
      cases answer with
      | none => simpa [weight] using FiniteSource.size_read_none hr
      | some d =>
        have := FiniteSource.size_read_some hr
        simp only [Option.getD_some, weight]
        split <;> omega

theorem unread_stepBack {s s1 s2 : Scanner σ} {c : Char} (ht : Took s c s1)
    (h : s1.stepBack = (.ok (), s2)) : s2.unread ≤ s.unread := by
  obtain ⟨-, rfl⟩ := stepBack_ok h
  have := ht.unread
  simp only [Scanner.unread, pendingWeight, ht.pending, Cursor.stepBack, ht.previous] at this ⊢
  omega

theorem Took.lt {s s' : Scanner σ} {c : Char} (h : Took s c s') (hc : c ≠ endMark) :
    s'.unread < s.unread := by
  have := h.unread
  rw [weight_of_ne hc] at this
  omega

theorem Took.le {s s' : Scanner σ} {c : Char} (h : Took s c s') : s'.unread ≤ s.unread := by
  have := h.unread
  omega

/-- Reading on from where nothing was lost. -/
theorem Took.trans {s s1 s2 : Scanner σ} {c : Char} (h1 : s1.unread ≤ s.unread)
    (h2 : Took s1 c s2) : Took s c s2 :=
  ⟨h2.previous, h2.pending, Nat.le_trans h2.unread h1⟩

end Scanner

end LaxJson
