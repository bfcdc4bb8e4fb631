import LaxJson.Proofs.Scanner.Invariant
import LaxJson.Proofs.Scanner.Offers
import LaxJson.Proofs.Source.Metered
import LaxJson.Source.Script

/-!
# LaxJson.Proofs.Scanner.Retracing

Putting a character back and reading it undo each other. The cursor keeps the line state ahead of
its latest advance and nothing older, so that this needs an invariant.

* `Cursor.Retraced`: where nothing is put back, stepping back and advancing over the latest
  character lead back to the cursor. `retraced_lasting`: this lasts, also through reads that fail
  and searches that go back.
* `Reversible`: what putting back does in a state, and what reading does after it and before it.
* `run_reversible`: every state that requests lead to is like that, over any source.
-/

namespace LaxJson

/-- The latest character, put back and read again, brings the cursor back to where it is. -/
def Cursor.Retraced (k : Cursor) : Prop :=
  k.pending = none → k.index ≠ 0 → k.stepBack.advance k.previous = k

namespace Scanner

variable {σ : Type}

theorem retraced_lasting : Lasting Cursor.Retraced where
  advance c _ _ _ := Cursor.advance_stepBack _ c
  stepBack _ _ _ hpending := by cases hpending

theorem retraced_start : Cursor.start.Retraced := fun _ hindex => absurd rfl hindex

/-! ## Putting back -/

theorem stepBack_of_pending_isSome {s : Scanner σ} (h : s.cursor.pending.isSome = true) :
    s.stepBack = (.error (.misused .steppedBackTwice), s) := by
  rw [stepBack, if_pos h]

theorem stepBack_of_index_zero {s : Scanner σ} (h : s.cursor.pending = none)
    (hindex : s.cursor.index = 0) : s.stepBack = (.error (.misused .steppedBackAtStart), s) := by
  rw [stepBack, h, if_neg (by decide), if_pos hindex]

/-- Putting back is refused as the second time exactly if a character is pending. -/
theorem stepBack_eq_twice_iff {s : Scanner σ} :
    s.stepBack = (.error (.misused .steppedBackTwice), s) ↔ s.cursor.pending.isSome = true := by
  refine ⟨fun h => ?_, stepBack_of_pending_isSome⟩
  cases hpending : s.cursor.pending with
  | some c => rfl
  | none =>
    by_cases hindex : s.cursor.index = 0
    · rw [stepBack_of_index_zero hpending hindex] at h
      cases h
    · rw [stepBack_of_read hpending hindex] at h
      cases h

variable [CharSource σ]

/-- What was put back comes next, and no source is asked for it. -/
theorem next_of_stepBack {s s' : Scanner σ} (h : s.cursor.Retraced)
    (hback : s.stepBack = (.ok (), s')) (source : σ) :
    Scanner.next { s' with source := source } = (.ok s.previous, { s with source := source }) := by
  obtain ⟨⟨hpending, hindex⟩, rfl⟩ := stepBack_ok hback
  rw [next_of_pending rfl, h hpending hindex]
  rfl

/-! ## After any requests -/

/-- How putting back goes, and how reading goes together with it. -/
structure Reversible (s : Scanner σ) : Prop where
  /-- Only one character can be put back. -/
  twice : (∃ m : Misuse, s.stepBack = (.error (.misused m), s) ∧
    m.message = "cannot step back twice") ↔ s.cursor.pending.isSome = true
  /-- It must have been read. -/
  allowed : (∃ s', s.stepBack = (.ok (), s')) ↔
    s.cursor.pending = none ∧ s.position.index ≠ 0
  /-- A refusal is a misuse and changes nothing. -/
  refused : ∀ e s', s.stepBack = (.error e, s') → (∃ m, e = .misused m) ∧ s' = s
  /-- Reading what was put back restores the scanner, and would do so over any other source. -/
  restored : ∀ s', s.stepBack = (.ok (), s') → s'.next = (.ok s.previous, s) ∧
    ∀ source : σ, Scanner.next { s' with source := source } =
      (.ok s.previous, { s with source := source })
  /-- Putting back what was read restores the position. -/
  undone : ∀ c s', s.next = (.ok c, s') →
    ∃ s'', s'.stepBack = (.ok (), s'') ∧ s''.position = s.position

theorem reversible {s : Scanner σ} (h : s.cursor.Retraced) : Reversible s where
  twice := by
    constructor
    · rintro ⟨m, hback, hm⟩
      cases m with
      | steppedBackTwice => exact stepBack_eq_twice_iff.mp hback
      | steppedBackAtStart => exact absurd hm (by decide)
    · intro hpending
      exact ⟨.steppedBackTwice, stepBack_eq_twice_iff.mpr hpending, rfl⟩
  allowed := by
    constructor
    · rintro ⟨s', hback⟩
      exact (stepBack_ok hback).1
    · rintro ⟨hpending, hindex⟩
      exact ⟨_, stepBack_of_read hpending hindex⟩
  refused _ _ := stepBack_error
  restored := by
    intro s' hback
    obtain ⟨-, rfl⟩ := stepBack_ok hback
    exact ⟨next_of_stepBack h hback s.source, next_of_stepBack h hback⟩
  undone := by
    intro c s' hn
    have hback := (next_handed hn).stepBack
    have hposition := (next_stepBack hn).2
    rw [hback] at hposition
    exact ⟨_, hback, hposition⟩

/-- **Putting back and reading undo each other.** Let any requests have been served, over any
source, whatever its reads answer. Putting back is refused if a character is put back already or
none has been read, and then nothing changes. Where it is not, reading answers the previous
character, does not ask the source, and restores the scanner with its whole cursor. And after a
character is read it can be put back, which restores the position. Of a source that is not finite,
as many reads are allowed as one likes. -/
theorem run_reversible :
    (∀ (σ : Type) [CharSource σ] [FiniteSource σ] (source : σ) (o : Options)
      (requests : List Request), Reversible ((ofSource source o).run requests).2) ∧
    ∀ (σ : Type) [CharSource σ] (source : σ) (reads : Nat) (o : Options)
      (requests : List Request),
      Reversible ((ofSource (MeteredSource.mk source reads) o).run requests).2 := by
  have hall : ∀ (σ : Type) [CharSource σ] [FiniteSource σ] (source : σ) (o : Options)
      (requests : List Request), Reversible ((ofSource source o).run requests).2 := by
    intro σ _ _ source o requests
    exact reversible (retraced_lasting.invariant.run requests retraced_start)
  exact ⟨hall, fun σ _ source reads => hall _ (MeteredSource.mk source reads)⟩

/-- A carriage return was read, and then a read failed. The return is put back and read again. -/
theorem run_reversible_failing :
    let lost : SourceError := ⟨.connectionReset, "connection reset"⟩
    let source : ScriptSource := .ofEvents [.text "a\r", .failure lost, .text "\n"]
    let s := ((ofSource source {}).run [.next, .next, .next]).2
    s.position = ⟨2, 1, 3⟩ ∧ (s.next.1 = .ok '\n' ∧ s.next.2.position = ⟨3, 2, 0⟩) ∧
      ∃ s', s.stepBack = (.ok (), s') ∧ s'.position = ⟨1, 1, 2⟩ ∧ s'.next = (.ok '\r', s) := by
  intro lost source s
  have hs : Reversible s := run_reversible.1 ScriptSource source {} [.next, .next, .next]
  obtain ⟨s', hback⟩ : ∃ s', s.stepBack = (.ok (), s') :=
    hs.allowed.mpr ⟨by with_unfolding_all rfl, by with_unfolding_all decide⟩
  have hposition : s.stepBack.2.position = ⟨1, 1, 2⟩ := by with_unfolding_all rfl
  rw [hback] at hposition
  exact ⟨by with_unfolding_all rfl, ⟨by with_unfolding_all rfl, by with_unfolding_all rfl⟩, s',
    hback, hposition, (hs.restored s' hback).1⟩

end Scanner

end LaxJson
