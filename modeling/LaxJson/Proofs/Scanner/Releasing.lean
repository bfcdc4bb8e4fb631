import LaxJson.Proofs.Scanner.Handed
import LaxJson.Proofs.Source.Marks
import LaxJson.Proofs.Source.Metered
import LaxJson.Source.Script

/-!
# LaxJson.Proofs.Scanner.Releasing

A search sets a mark on its source before it reads. Whether it has released the mark when it
answers depends on how it ends.

* `Recorder.Released`: a recorder that does not record what is read, and cannot be reset.
  `released_iff`: that is one without a mark, since reading sets none.
* `Recorder.Marked`: reading does not release a mark, and neither does a reset that fails.
* `Leaves`: a search leaves no mark with an answer, and its own mark with a failure.
* `released_seek_iff`: so a search releases its mark exactly if it succeeds. Its failures are those
  of the source, in a read or in the reset.
-/

namespace LaxJson

open CharSource (afterReads)

namespace Recorder

variable {σ : Type}

/-! ## A mark that is set -/

/-- A mark set with `limit` has not been released; it may have been lost. -/
def Marked (limit : Nat) (s : Recorder σ) : Prop := ∃ ps, Since limit s ps

variable {limit : Nat} {s s' : Recorder σ} {e : SourceError}

theorem Marked.ne_unmarked (h : Marked limit s) : s.mark ≠ .unmarked := by
  obtain ⟨ps, hps⟩ := h
  intro hmark
  rwa [Since, hmark] at hps

theorem Marked.reset (h : Marked limit s) (hr : s.reset = (.error e, s')) : Marked limit s' := by
  obtain ⟨inner, replay, m⟩ := s
  cases m <;> cases hr <;> exact h

variable [CharSource σ]

theorem Marked.read (h : Marked limit s) : Marked limit s.read.2 := by
  obtain ⟨ps, hps⟩ := h
  rcases hr : s.read with ⟨e | answer, s'⟩
  · exact ⟨ps, since_read_error hps hr⟩
  · exact ⟨ps ++ answer.toList, since_read hps hr⟩

/-! ## No mark -/

/-- Nothing is recorded any more, however much is read, and a reset is refused. -/
structure Released (s : Recorder σ) : Prop where
  unrecorded : ∀ n, (afterReads s n).mark = .unmarked
  refused : ∀ n, CharSource.reset (afterReads s n) = (.error .notMarked, afterReads s n)

theorem reset_unmarked (h : s.mark = .unmarked) :
    CharSource.reset s = (.error .notMarked, s) := by
  obtain ⟨inner, replay, m⟩ := s
  cases h
  rfl

theorem unmarked_read (h : s.mark = .unmarked) : s.read.2.mark = .unmarked := by
  obtain ⟨inner, _ | ⟨c, rest⟩, m⟩ := s
  · cases h
    simp only [Recorder.read]
    rcases CharSource.read inner with ⟨_ | _ | c, inner'⟩ <;> rfl
  · cases h
    rfl

theorem unmarked_afterReads (h : s.mark = .unmarked) (n : Nat) :
    (afterReads s n).mark = .unmarked := by
  induction n generalizing s with
  | zero => exact h
  | succ n ih => exact ih (unmarked_read h)

theorem released_iff : Released s ↔ s.mark = .unmarked := by
  constructor
  · intro h
    exact h.unrecorded 0
  · intro h
    exact ⟨unmarked_afterReads h, fun n => reset_unmarked (unmarked_afterReads h n)⟩

end Recorder

namespace Scanner

open Recorder (Marked Released)

variable {σ : Type} [CharSource σ]

/-- Reading on leaves a mark that is set. -/
theorem next_marked {limit : Nat} {s : Scanner (Recorder σ)} (h : Marked limit s.source) :
    Marked limit s.next.2.source := by
  rcases source_of_next s with hsame | hread
  · rwa [hsame]
  · rw [hread]
    exact Marked.read h

/-- How a search leaves the mark that it has set. -/
structure Leaves (r : Except Failure Char × Scanner (Recorder σ)) : Prop where
  ok : ∀ c, r.1 = .ok c → r.2.source.mark = .unmarked
  error : ∀ e, r.1 = .error e → (∃ cause, e = .source cause) ∧ Marked seekLimit r.2.source

omit [CharSource σ] in
theorem Leaves.of_unmarked {c : Char} {s : Scanner (Recorder σ)} (h : s.source.mark = .unmarked) :
    Leaves (.ok c, s) where
  ok _ _ := h
  error := by rintro _ ⟨⟩

omit [CharSource σ] in
theorem Leaves.of_marked {e : SourceError} {s : Scanner (Recorder σ)}
    (h : Marked seekLimit s.source) : Leaves (.error (.source e), s) where
  ok := by rintro _ ⟨⟩
  error := by
    rintro _ ⟨⟩
    exact ⟨⟨e, rfl⟩, h⟩

/-- The mark of a search is released if the search succeeds, and not otherwise. -/
structure ReleasedOnSuccess (r : Except Failure Char × Scanner (Recorder σ)) : Prop where
  /-- With an answer nothing is recorded any more, and a reset is refused. -/
  released : Released r.2.source ↔ ∃ c, r.1 = .ok c
  /-- Without one the source has failed, and has the mark of the search. -/
  marked : ∀ e, r.1 = .error e → (∃ cause, e = .source cause) ∧ Marked seekLimit r.2.source

theorem Leaves.releasedOnSuccess {r : Except Failure Char × Scanner (Recorder σ)} (h : Leaves r) :
    ReleasedOnSuccess r where
  released := by
    rw [Recorder.released_iff]
    constructor
    · intro hmark
      rcases hr : r.1 with e | c
      · exact absurd hmark (h.error e hr).2.ne_unmarked
      · exact ⟨c, rfl⟩
    · rintro ⟨c, hc⟩
      exact h.ok c hc
  marked := h.error

section Finite

variable [FiniteSource σ]

/-- The mark is set while a search goes on. It is released on the two ways to an answer, and on no
way to a failure. -/
theorem seekFrom_leaves (target : Char) (origin : Cursor) (s : Scanner (Recorder σ))
    (h : Marked seekLimit s.source) : Leaves (seekFrom target origin s) :=
  seekFrom_rule (P := fun s => Marked seekLimit s.source) (fun _ hs => next_marked hs)
    (fun _ _ hs => .of_marked hs) (fun _ _ _ hs hr => .of_marked (hs.reset hr))
    (fun _ _ _ _ => .of_unmarked rfl) (fun _ _ _ => .of_unmarked rfl) h

theorem seek_leaves (s : Scanner (Recorder σ)) (target : Char) : Leaves (s.seek target) :=
  seekFrom_leaves target s.cursor _ ⟨[], rfl, Nat.zero_add seekLimit⟩

end Finite

/-- **A search releases its mark exactly if it succeeds.** Let a scanner over a recorder, in any
state and over any source, search for a character. If the search answers, with its target or with
the end mark, then nothing is recorded any more and a reset is refused. Otherwise the source has
failed, in a read or in the reset, and the mark of the search is still set. Of a source that is not
finite, as many reads are allowed as one likes. -/
theorem released_seek_iff (target : Char) :
    (∀ [FiniteSource σ] (s : Scanner (Recorder σ)), ReleasedOnSuccess (s.seek target)) ∧
      ∀ s : Scanner (Recorder (MeteredSource σ)), ReleasedOnSuccess (s.seek target) :=
  ⟨fun s => (seek_leaves s target).releasedOnSuccess,
    fun s => (seek_leaves s target).releasedOnSuccess⟩

/-- A read fails during the search. The source is left with the mark: it can be reset to it, and
goes on recording. -/
theorem seek_keeps_mark :
    let lost : SourceError := ⟨.other, "lost"⟩
    let script : ScriptSource := .ofEvents [.text "a", .failure lost, .text "b"]
    let r := (ofSource (Recorder.ofSource script) {}).seek 'x'
    r.1 = .error (.source lost) ∧ (CharSource.reset r.2.source).1 = .ok () ∧
      (CharSource.read r.2.source).2.mark = .recording 999998 ['b', 'a'] ∧
      ¬ Released r.2.source := by
  intro lost script r
  have hmark : (CharSource.read r.2.source).2.mark = .recording 999998 ['b', 'a'] := by
    with_unfolding_all rfl
  refine ⟨by with_unfolding_all rfl, by with_unfolding_all rfl, hmark, fun h => ?_⟩
  have hnone : (CharSource.read r.2.source).2.mark = .unmarked := h.unrecorded 1
  rw [hmark] at hnone
  cases hnone

end Scanner

end LaxJson
