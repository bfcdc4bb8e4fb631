import LaxJson.Source

/-!
# LaxJson.Source.Recorder

Gives any source a mark. While a mark is set the characters handed out are recorded, and a reset
queues them for replay ahead of the inner source. A mark keeps at most as many characters as its
limit; reading one more invalidates it.
-/

namespace LaxJson

/-- The state of a mark. In `recording room seen`, `seen` holds the characters read since the mark,
newest first, and `room` more may follow before the mark is lost. -/
inductive Mark where
  | unmarked
  | recording (room : Nat) (seen : List Char)
  | invalidated
  deriving DecidableEq

/-- What one more character does to the mark. -/
def Mark.record : Mark → Char → Mark
  | .recording (room + 1) seen, c => .recording room (c :: seen)
  | .recording 0 _, _ => .invalidated
  | m, _ => m

/-- A source with a mark; `replay` is handed out before `inner` is asked again. -/
structure Recorder (σ : Type) where
  inner : σ
  replay : List Char
  mark : Mark

namespace Recorder

variable {σ : Type}

def ofSource (s : σ) : Recorder σ := ⟨s, [], .unmarked⟩

def read [CharSource σ] (s : Recorder σ) : Except SourceError (Option Char) × Recorder σ :=
  match s with
  | ⟨inner, c :: rest, mark⟩ => (.ok (some c), ⟨inner, rest, mark.record c⟩)
  | ⟨inner, [], mark⟩ =>
    match CharSource.read inner with
    | (.error e, inner') => (.error e, ⟨inner', [], mark⟩)
    | (.ok none, inner') => (.ok none, ⟨inner', [], mark⟩)
    | (.ok (some c), inner') => (.ok (some c), ⟨inner', [], mark.record c⟩)

/-- A reset keeps the mark, with its whole limit free again. -/
def reset (s : Recorder σ) : Except SourceError Unit × Recorder σ :=
  match s with
  | ⟨inner, replay, .recording room seen⟩ =>
    (.ok (), ⟨inner, seen.reverse ++ replay, .recording (seen.length + room) []⟩)
  | ⟨_, _, .invalidated⟩ => (.error .markInvalid, s)
  | ⟨_, _, .unmarked⟩ => (.error .notMarked, s)

instance [CharSource σ] : CharSource (Recorder σ) where
  read := read
  mark s limit := (.ok (), { s with mark := .recording limit [] })
  reset := reset
  unmark s := { s with mark := .unmarked }

instance [CharSource σ] [FiniteSource σ] : FiniteSource (Recorder σ) where
  size s := s.replay.length + FiniteSource.size s.inner
  size_read_some := by
    rintro ⟨inner, _ | ⟨c, rest⟩, mark⟩ s' c' h
    · simp only [CharSource.read, read] at h
      split at h <;> cases h
      rename_i hr
      have := FiniteSource.size_read_some hr
      simpa using this
    · cases h
      simp only [List.length_cons]
      omega
  size_read_none := by
    rintro ⟨inner, _ | ⟨c, rest⟩, mark⟩ s' h
    · simp only [CharSource.read, read] at h
      split at h <;> cases h
      rename_i hr
      have := FiniteSource.size_read_none hr
      simpa using this
    · cases h

end Recorder

end LaxJson
