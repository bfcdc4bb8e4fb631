import LaxJson.Session
import LaxJson.Source.Recorder

/-!
# LaxJson.Proofs.Source.Tape

The ideal of a source with a mark is a tape: it keeps every character that the source beneath ever
gave, a place to read from, and a mark that is a place on the tape together with a limit.

* `Recorder.Refines`: how the replay queue and the recording of a recorder lie on the tape.
* `perform_refines`: one request keeps this, and both give the same answer.
* `run_eq_tape_run`: so every run of requests over any source is answered as the tape answers it,
  and the recording never outgrows the limit of the mark.
-/

namespace LaxJson

/-- The mark of a tape: nothing, a place and how far reading may go past it, or a mark lost. -/
inductive TapeMark where
  | none
  | valid (origin limit : Nat)
  | invalid
  deriving DecidableEq

/-- The mark once reading has come to `place`. -/
def TapeMark.passed (place : Nat) : TapeMark → TapeMark
  | .valid origin limit => if limit < place - origin then .invalid else .valid origin limit
  | m => m

/-- Everything got from `inner` so far, and the place of the next character in it. -/
structure Tape (σ : Type) where
  inner : σ
  history : List Char
  place : Nat
  mark : TapeMark

namespace Tape

variable {σ : Type}

def ofSource (s : σ) : Tape σ := ⟨s, [], 0, .none⟩

/-- One place on. -/
def advance (t : Tape σ) : Tape σ :=
  { t with place := t.place + 1, mark := t.mark.passed (t.place + 1) }

/-- The character at the place, or one more from the source beneath. -/
def read [CharSource σ] (t : Tape σ) : Except SourceError (Option Char) × Tape σ :=
  match t.history[t.place]? with
  | some c => (.ok (some c), t.advance)
  | none =>
    match CharSource.read t.inner with
    | (.error e, inner') => (.error e, { t with inner := inner' })
    | (.ok none, inner') => (.ok none, { t with inner := inner' })
    | (.ok (some c), inner') =>
      (.ok (some c), ({ t with inner := inner', history := t.history ++ [c] } : Tape σ).advance)

def reset (t : Tape σ) : Except SourceError Unit × Tape σ :=
  match t.mark with
  | .valid origin _ => (.ok (), { t with place := origin })
  | .invalid => (.error .markInvalid, t)
  | .none => (.error .notMarked, t)

instance [CharSource σ] : CharSource (Tape σ) where
  read := read
  mark t limit := (.ok (), { t with mark := .valid t.place limit })
  reset := reset
  unmark t := { t with mark := .none }

end Tape

/-- The characters that a mark holds. -/
def Mark.recorded : Mark → List Char
  | .recording _ seen => seen.reverse
  | _ => []

namespace Recorder

variable {σ : Type}

/-- The mark `m` records what the tape `t` has between its mark and its place. -/
def MarkRefines (m : Mark) (t : Tape σ) : Prop :=
  match t.mark with
  | .none => m = .unmarked
  | .invalid => m = .invalidated
  | .valid origin limit =>
    ∃ room seen, m = .recording room seen ∧ seen.length + room = limit ∧ origin ≤ t.place ∧
      t.history.drop origin = seen.reverse ++ t.history.drop t.place

/-- What is queued for replay is the rest of the tape from its place on. -/
structure Refines (s : Recorder σ) (t : Tape σ) : Prop where
  inner : s.inner = t.inner
  place_le : t.place ≤ t.history.length
  replay : s.replay = t.history.drop t.place
  mark : MarkRefines s.mark t

theorem ofSource_refines (inner : σ) : Refines (ofSource inner) (Tape.ofSource inner) :=
  ⟨rfl, Nat.le_refl 0, rfl, rfl⟩

/-- A recording is as long as the stretch of tape from the mark to the place. -/
theorem length_seen {t : Tape σ} {origin : Nat} {seen : List Char}
    (hp : t.place ≤ t.history.length) (ho : origin ≤ t.place)
    (h : t.history.drop origin = seen.reverse ++ t.history.drop t.place) :
    seen.length = t.place - origin := by
  have hlen := congrArg List.length h
  simp only [List.length_append, List.length_reverse, List.length_drop] at hlen
  omega

/-- Passing the character at its place, a tape does to its mark what recording does. -/
theorem record_refines {m : Mark} {t : Tape σ} {c : Char} (hc : t.history[t.place]? = some c)
    (h : MarkRefines m t) : MarkRefines (m.record c) t.advance := by
  obtain ⟨inner, history, place, mark⟩ := t
  obtain ⟨hlt, hget⟩ := List.getElem?_eq_some_iff.mp hc
  simp only at hlt hget
  cases mark with
  | none => simp only [MarkRefines] at h; subst h; rfl
  | invalid => simp only [MarkRefines] at h; subst h; rfl
  | valid origin limit =>
    obtain ⟨room, seen, rfl, hroom, ho, hseen⟩ := h
    have hlen := length_seen (t := ⟨inner, history, place, .valid origin limit⟩)
      (Nat.le_of_lt hlt) ho hseen
    simp only at ho hseen hlen
    by_cases hfull : room = 0
    · subst hfull
      have hout : limit < place + 1 - origin := by omega
      simp only [MarkRefines, Tape.advance, TapeMark.passed, if_pos hout]
      rfl
    · obtain ⟨room, rfl⟩ := Nat.exists_eq_succ_of_ne_zero hfull
      have hin : ¬ limit < place + 1 - origin := by omega
      simp only [MarkRefines, Tape.advance, TapeMark.passed, if_neg hin]
      refine ⟨room, c :: seen, rfl, by simp only [List.length_cons]; omega, by omega, ?_⟩
      rw [hseen, List.drop_eq_getElem_cons hlt, hget]
      simp

theorem read_refines [CharSource σ] {s : Recorder σ} {t : Tape σ} (h : Refines s t) :
    s.read.1 = t.read.1 ∧ Refines s.read.2 t.read.2 := by
  obtain ⟨inner, replay, mark⟩ := s
  obtain ⟨inner', history, place, tapeMark⟩ := t
  obtain ⟨hi, hp, hr, hm⟩ := h
  simp only at hi hp hr hm
  subst hi
  by_cases hlt : place < history.length
  · have hget : history[place]? = some history[place] := List.getElem?_eq_getElem hlt
    rw [List.drop_eq_getElem_cons hlt] at hr
    subst hr
    simp only [read, Tape.read, hget, true_and]
    exact ⟨rfl, hlt, rfl, record_refines hget hm⟩
  · have hend : history.length = place := by omega
    have hget : history[place]? = none := List.getElem?_eq_none (by omega)
    rw [List.drop_eq_nil_of_le (by omega)] at hr
    subst hr
    rcases hread : CharSource.read inner with ⟨_ | _ | c, inner'⟩
    · simp only [read, Tape.read, hget, hread, true_and]
      exact ⟨rfl, hp, by simp [hend], hm⟩
    · simp only [read, Tape.read, hget, hread, true_and]
      exact ⟨rfl, hp, by simp [hend], hm⟩
    · simp only [read, Tape.read, hget, hread, true_and]
      have hlast : (history ++ [c])[place]? = some c := by simp [← hend]
      refine ⟨rfl, ?_, ?_, record_refines hlast ?_⟩
      · simp only [Tape.advance, List.length_append, List.length_singleton]
        omega
      · simp only [Tape.advance]
        rw [List.drop_eq_nil_of_le (by simp [hend])]
      · -- the new character lies past the place, so the stretch up to the place is the same
        cases tapeMark with
        | none => exact hm
        | invalid => exact hm
        | valid origin limit =>
          obtain ⟨room, seen, rfl, hroom, ho, hseen⟩ := hm
          refine ⟨room, seen, rfl, hroom, ho, ?_⟩
          simp only at ho hseen ⊢
          rw [List.drop_append_of_le_length (by omega), List.drop_append_of_le_length (by omega),
            hseen, List.append_assoc]

theorem reset_refines {s : Recorder σ} {t : Tape σ} (h : Refines s t) :
    s.reset.1 = t.reset.1 ∧ Refines s.reset.2 t.reset.2 := by
  obtain ⟨inner, replay, mark⟩ := s
  obtain ⟨inner', history, place, tapeMark⟩ := t
  have hrefines := h
  obtain ⟨hi, hp, hr, hm⟩ := h
  cases tapeMark with
  | none => simp only [MarkRefines] at hm; subst hm; exact ⟨rfl, hrefines⟩
  | invalid => simp only [MarkRefines] at hm; subst hm; exact ⟨rfl, hrefines⟩
  | valid origin limit =>
    obtain ⟨room, seen, rfl, hroom, ho, hseen⟩ := hm
    simp only at hi hp hr ho hseen
    subst hi hr
    exact ⟨rfl, rfl, Nat.le_trans ho hp, hseen.symm,
      seen.length + room, [], rfl, by simpa using hroom, Nat.le_refl _, rfl⟩

/-- One request: the same answer, and recorder and tape still correspond. -/
theorem perform_refines [CharSource σ] {s : Recorder σ} {t : Tape σ} (h : Refines s t)
    (request : SourceRequest) :
    (CharSource.perform s request).1 = (CharSource.perform t request).1 ∧
      Refines (CharSource.perform s request).2 (CharSource.perform t request).2 := by
  cases request with
  | read =>
    obtain ⟨hanswer, hstate⟩ := read_refines h
    have hs : CharSource.read s = s.read := rfl
    have ht : CharSource.read t = t.read := rfl
    simp only [CharSource.perform, hs, ht]
    rw [show t.read = (s.read.1, t.read.2) from Prod.ext hanswer.symm rfl]
    cases hr : s.read with
    | mk answer s' =>
      rw [hr] at hstate
      cases answer <;> exact ⟨rfl, hstate⟩
  | mark limit =>
    exact ⟨rfl, h.inner, h.place_le, h.replay, limit, [], rfl, Nat.zero_add limit,
      Nat.le_refl _, rfl⟩
  | reset =>
    obtain ⟨hanswer, hstate⟩ := reset_refines h
    have hs : CharSource.reset s = s.reset := rfl
    have ht : CharSource.reset t = t.reset := rfl
    simp only [CharSource.perform, hs, ht]
    rw [show t.reset = (s.reset.1, t.reset.2) from Prod.ext hanswer.symm rfl]
    cases hr : s.reset with
    | mk answer s' =>
      rw [hr] at hstate
      cases answer <;> exact ⟨rfl, hstate⟩
  | unmark => exact ⟨rfl, h.inner, h.place_le, h.replay, rfl⟩

theorem run_refines [CharSource σ] (requests : List SourceRequest) {s : Recorder σ} {t : Tape σ}
    (h : Refines s t) :
    (CharSource.run s requests).1 = (CharSource.run t requests).1 ∧
      Refines (CharSource.run s requests).2 (CharSource.run t requests).2 := by
  induction requests generalizing s t with
  | nil => exact ⟨rfl, h⟩
  | cons request rest ih =>
    obtain ⟨hanswer, hstate⟩ := perform_refines h request
    obtain ⟨hanswers, hend⟩ := ih hstate
    exact ⟨congr (congrArg List.cons hanswer) hanswers, hend⟩

/-- A mark that refines a tape's mark records nothing without a valid one, and never more than its
limit with one. -/
theorem MarkRefines.recorded_length {m : Mark} {t : Tape σ} (h : MarkRefines m t) :
    match t.mark with
    | .valid _ limit => m.recorded.length ≤ limit
    | _ => m.recorded = [] := by
  unfold MarkRefines at h
  split at h
  · next hm => simp only [hm]; subst h; rfl
  · next hm => simp only [hm]; subst h; rfl
  · next hm =>
    obtain ⟨room, seen, rfl, hroom, -, -⟩ := h
    simp only [hm, Mark.recorded, List.length_reverse]
    omega

/-- **A recorder is a tape.** Over any source, and for any run of reads, marks, resets and unmarks,
a recorder gives the answers of the tape and asks the source beneath as often as the tape does. What
it holds at the end for a mark is within that mark's limit, and without a valid mark nothing. -/
theorem run_eq_tape_run [CharSource σ] (inner : σ) (requests : List SourceRequest) :
    let recorded := CharSource.run (ofSource inner) requests
    let taped := CharSource.run (Tape.ofSource inner) requests
    recorded.1 = taped.1 ∧ recorded.2.inner = taped.2.inner ∧
      match taped.2.mark with
      | .valid _ limit => recorded.2.mark.recorded.length ≤ limit
      | _ => recorded.2.mark.recorded = [] := by
  intro recorded taped
  obtain ⟨hanswers, hend⟩ := run_refines requests (ofSource_refines inner)
  exact ⟨hanswers, hend.inner, hend.mark.recorded_length⟩

end Recorder

end LaxJson
