import LaxJson.Cursor
import LaxJson.Failure
import LaxJson.Options
import LaxJson.Source.Bytes
import LaxJson.Source.Chars
import LaxJson.Source.Recorder
import LaxJson.Source.Text

/-!
# LaxJson.Scanner.Basic

A scanner reads a source one character at a time, with one character of pushback, and tracks its
position. Every operation answers with a result and the scanner after it; a failed operation leaves
the scanner where the failure found it.

This module has the operations that need no loop over the source.
-/

namespace LaxJson

/-- A scanner over a source; `depth` counts the containers that are open. -/
structure Scanner (σ : Type) where
  source : σ
  cursor : Cursor
  options : Options
  depth : Nat

namespace Scanner

variable {σ : Type}

def ofSource (source : σ) (options : Options) : Scanner σ := ⟨source, .start, options, 0⟩

def ofText (text : String) (options : Options) : Scanner TextSource :=
  ofSource (.ofText text) options

/-- Characters from a list, made markable. -/
def ofChars (text : String) (options : Options) : Scanner (Recorder CharsSource) :=
  ofSource (.ofSource (.ofText text)) options

/-- Characters from a byte stream, made markable. -/
def ofDeliveries (ds : List Delivery) (options : Options) : Scanner (Recorder ByteSource) :=
  ofSource (.ofSource (.ofDeliveries ds)) options

def position (s : Scanner σ) : Position := s.cursor.position

def previous (s : Scanner σ) : Char := s.cursor.previous

def atEnd (s : Scanner σ) : Bool := s.cursor.atEnd

/-- A fault at the current position. -/
def faultHere (s : Scanner σ) (fault : Fault) : Failure := .faulty fault s.position

def fail {α : Type} (s : Scanner σ) (fault : Fault) : Except Failure α × Scanner σ :=
  (.error (s.faultHere fault), s)

variable [CharSource σ]

/-- The next character: the pushback if there is one, otherwise from the source. The end of the
source is the end mark, and so is a NUL character of the text. -/
def next (s : Scanner σ) : Except Failure Char × Scanner σ :=
  match s with
  | ⟨source, cursor, options, depth⟩ =>
    match cursor.pending with
    | some c => (.ok c, ⟨source, cursor.advance c, options, depth⟩)
    | none =>
      match CharSource.read source with
      | (.error e, source') => (.error (.source e), ⟨source', cursor, options, depth⟩)
      | (.ok answer, source') =>
        let c := answer.getD endMark
        (.ok c, ⟨source', cursor.advance c, options, depth⟩)

/-- Puts the latest character back. Only one can be put back, and only after a read. -/
def stepBack (s : Scanner σ) : Except Failure Unit × Scanner σ :=
  if s.cursor.pending.isSome then (.error (.misused .steppedBackTwice), s)
  else if s.cursor.index = 0 then (.error (.misused .steppedBackAtStart), s)
  else (.ok (), { s with cursor := s.cursor.stepBack })

/-- What was put back comes first, and the source is not asked. -/
theorem next_of_pending {s : Scanner σ} {c : Char} (h : s.cursor.pending = some c) :
    s.next = (.ok c, { s with cursor := s.cursor.advance c }) := by
  simp only [next, h]

theorem next_of_read {s : Scanner σ} {answer : Option Char} {source : σ}
    (h : s.cursor.pending = none) (hr : CharSource.read s.source = (.ok answer, source)) :
    s.next = (.ok (answer.getD endMark),
      { s with source := source, cursor := s.cursor.advance (answer.getD endMark) }) := by
  simp only [next, h, hr]

theorem next_of_read_error {s : Scanner σ} {e : SourceError} {source : σ}
    (h : s.cursor.pending = none) (hr : CharSource.read s.source = (.error e, source)) :
    s.next = (.error (.source e), { s with source := source }) := by
  simp only [next, h, hr]

/-- A character was read: the cursor has advanced over it. -/
theorem next_ok {s s' : Scanner σ} {c : Char} (h : s.next = (.ok c, s')) :
    s' = { s with source := s'.source, cursor := s.cursor.advance c } := by
  cases hpending : s.cursor.pending with
  | some d =>
    rw [next_of_pending hpending] at h
    cases h
    rfl
  | none =>
    rcases hr : CharSource.read s.source with ⟨e | answer, source⟩
    · rw [next_of_read_error hpending hr] at h
      cases h
    · rw [next_of_read hpending hr] at h
      cases h
      rfl

/-- Reading fails in the source only, and then nothing but the source has changed: not the position,
not the latest character, not the pushback. -/
theorem next_error {s s' : Scanner σ} {e : Failure} (h : s.next = (.error e, s')) :
    (∃ cause, e = .source cause) ∧ s' = { s with source := s'.source } := by
  cases hpending : s.cursor.pending with
  | some d =>
    rw [next_of_pending hpending] at h
    cases h
  | none =>
    rcases hr : CharSource.read s.source with ⟨cause | answer, source⟩
    · rw [next_of_read_error hpending hr] at h
      cases h
      exact ⟨⟨cause, rfl⟩, rfl⟩
    · rw [next_of_read hpending hr] at h
      cases h

/-- The source is asked for at most one character. -/
theorem source_of_next (s : Scanner σ) :
    s.next.2.source = s.source ∨ s.next.2.source = (CharSource.read s.source).2 := by
  cases hpending : s.cursor.pending with
  | some c =>
    rw [next_of_pending hpending]
    exact .inl rfl
  | none =>
    rcases hr : CharSource.read s.source with ⟨e | answer, source⟩
    · rw [next_of_read_error hpending hr]
      exact .inr rfl
    · rw [next_of_read hpending hr]
      exact .inr rfl

/-- Reading changes neither the options nor the number of open containers. -/
theorem next_frame (s : Scanner σ) : s.next.2.options = s.options ∧ s.next.2.depth = s.depth := by
  rcases hn : s.next with ⟨e | c, s'⟩
  · rw [(next_error hn).2]
    exact ⟨rfl, rfl⟩
  · rw [next_ok hn]
    exact ⟨rfl, rfl⟩

omit [CharSource σ] in
/-- Right after a character was read it can be put back. -/
theorem stepBack_of_read {s : Scanner σ} (hpending : s.cursor.pending = none)
    (hindex : s.cursor.index ≠ 0) :
    s.stepBack = (.ok (), { s with cursor := s.cursor.stepBack }) := by
  rw [stepBack, hpending, if_neg (by decide), if_neg hindex]

omit [CharSource σ] in
/-- It cannot anywhere else. -/
theorem stepBack_ok {s s' : Scanner σ} (h : s.stepBack = (.ok (), s')) :
    (s.cursor.pending = none ∧ s.cursor.index ≠ 0) ∧
      s' = { s with cursor := s.cursor.stepBack } := by
  unfold stepBack at h
  split at h
  · cases h
  split at h
  · cases h
  rename_i hpending hindex
  cases h
  exact ⟨⟨Option.not_isSome_iff_eq_none.mp hpending, hindex⟩, rfl⟩

omit [CharSource σ] in
/-- Where it cannot be put back, that is a misuse, and nothing changes. -/
theorem stepBack_error {s s' : Scanner σ} {e : Failure} (h : s.stepBack = (.error e, s')) :
    (∃ m, e = .misused m) ∧ s' = s := by
  unfold stepBack at h
  split at h
  · cases h
    exact ⟨⟨_, rfl⟩, rfl⟩
  split at h
  · cases h
    exact ⟨⟨_, rfl⟩, rfl⟩
  · cases h

omit [CharSource σ] in
/-- Putting back looks at the cursor and changes the cursor, whatever the rest is. -/
theorem stepBack_frame {τ : Type} (s : Scanner σ) (source : τ) (options : Options) (depth : Nat) :
    Scanner.stepBack ⟨source, s.cursor, options, depth⟩ =
      (s.stepBack.1, ⟨source, s.stepBack.2.cursor, options, depth⟩) := by
  simp only [stepBack]
  split
  · rfl
  · split <;> rfl

omit [CharSource σ] in
theorem stepBack_snd (s : Scanner σ) :
    s.stepBack.2 = { s with cursor := s.stepBack.2.cursor } :=
  congrArg Prod.snd (stepBack_frame s s.source s.options s.depth)

/-- Whether a character is left, found out by reading it and putting it back. -/
def hasNext (s : Scanner σ) : Except Failure Bool × Scanner σ :=
  match s.next with
  | (.error e, s1) => (.error e, s1)
  | (.ok _, s1) =>
    if s1.atEnd then (.ok false, s1)
    else
      match s1.stepBack with
      | (.error e, s2) => (.error e, s2)
      | (.ok (), s2) => (.ok true, s2)

/-- Reads one character, which must be `wanted`. -/
def expect (s : Scanner σ) (wanted : Char) : Except Failure Char × Scanner σ :=
  match s.next with
  | (.error e, s1) => (.error e, s1)
  | (.ok c, s1) => if c = wanted then (.ok c, s1) else s1.fail (.unexpected wanted c)

/-- The next `n` characters after those in `text`, which holds them newest first. -/
def takeFrom (s : Scanner σ) (text : List Char) : Nat → Except Failure String × Scanner σ
  | 0 => (.ok (String.ofList text.reverse), s)
  | n + 1 =>
    match s.next with
    | (.error e, s1) => (.error e, s1)
    | (.ok c, s1) => if s1.atEnd then s1.fail .textTooShort else takeFrom s1 (c :: text) n

/-- No string can be longer than this. -/
def capacity : Nat := 0x7FFFFFFFFFFFFFFF

/-- Exactly `n` characters. -/
def take (s : Scanner σ) (n : Nat) : Except Failure String × Scanner σ :=
  if capacity < n then (.error .oversized, s) else takeFrom s [] n

theorem take_of_le {n : Nat} (h : n ≤ capacity) (s : Scanner σ) : s.take n = s.takeFrom [] n := by
  rw [take, if_neg (Nat.not_lt.mpr h)]

theorem take_of_lt {n : Nat} (h : capacity < n) (s : Scanner σ) :
    s.take n = (.error .oversized, s) := by
  rw [take, if_pos h]

end Scanner

end LaxJson
