import LaxJson.Proofs.Scanner.Within

/-!
# LaxJson.Proofs.Document.Faults

Where faults are found.

* `Located`: a fault is reported at the position where the scanner then stands. Every request is
  located, over any source (`perform_located`).
* `faults_located`: so parsing a text only fails with a fault of the text, at most one character
  past its end.
-/

namespace LaxJson

namespace Scanner

variable {σ : Type}

/-- A fault is reported where the scanner stands after the operation. -/
def Located {α : Type} (r : Except Failure α × Scanner σ) : Prop :=
  ∀ fault position, failure? r.1 = some (.faulty fault position) → position = r.2.position

theorem stepBack_located (s : Scanner σ) : Located s.stepBack := by
  rcases hb : s.stepBack with ⟨e | _, s'⟩
  · obtain ⟨⟨m, rfl⟩, -⟩ := stepBack_error hb
    rintro _ _ ⟨⟩
  · rintro _ _ ⟨⟩

variable [CharSource σ]

theorem next_located (s : Scanner σ) : Located s.next := by
  rcases hn : s.next with ⟨e | c, s'⟩
  · obtain ⟨⟨cause, rfl⟩, -⟩ := next_error hn
    rintro _ _ ⟨⟩
  · rintro _ _ ⟨⟩

/-- Every failure that a run ends with is a fault at its end, or another failure. -/
def placing : Course σ where
  Runs _ e s' := ∀ fault position, e = some (.faulty fault position) → position = s'.position
  Ready _ := True
  ready _ := trivial
  refl _ := nofun
  fault _ _ _ := by
    rintro _ _ ⟨⟩
    rfl
  trans _ h := h
  next _ := next_located _
  stepBack _ := nofun
  nested h := h

theorem placing_indifferent : (placing : Course σ).Indifferent where
  ready _ := trivial
  moved _ _ _ := by rintro _ _ ⟨⟩
  refused _ _ _ := by rintro _ _ ⟨⟩

variable [FiniteSource σ]

/-- Whatever is requested, a fault is reported where the scanner then stands. -/
theorem perform_located (s : Scanner σ) (request : Request) : Located (s.perform request) := by
  refine placing.perform (s := s) trivial request (fun _ => stepBack_located s)
    (placing_indifferent.seek s) ?_
  rintro n - _ _ ⟨⟩

end Scanner

open Scanner

/-- A text that is not a document has a fault, at most one character past its end. -/
theorem parse_error {text : String} {o : Options} {e : Failure} (h : parse text o = .error e) :
    ∃ fault position, e = .faulty fault position ∧
      position.index ≤ (untilEnd text.toList).length + 1 ∧
      position =
        (Cursor.after ((untilEnd text.toList ++ [endMark]).take position.index)).position := by
  have hruns := ((within text).logic.document (s := ofText text o) rfl).runs (ofText_within text o)
  obtain ⟨hwithin, hfaults⟩ := hruns
  obtain ⟨fault, rfl⟩ := hfaults e (congrArg failure? h)
  exact ⟨fault, _, rfl, hwithin.position⟩

/-- **Failures of a document are faults of the document, and faults are found where they are.** A
text is only refused for a fault, at a position with at most as many characters before it as the
text has before its first NUL, and the end mark; line and column are those of these characters. And
whatever is requested of a scanner over any source, a fault is reported at the position where the
scanner then stands. -/
theorem faults_located :
    (∀ (text : String) (o : Options) (e : Failure), parse text o = .error e →
      ∃ fault position, e = .faulty fault position ∧
        position.index ≤ (untilEnd text.toList).length + 1 ∧
        position =
          (Cursor.after ((untilEnd text.toList ++ [endMark]).take position.index)).position) ∧
    ∀ (σ : Type) [CharSource σ] [FiniteSource σ] (s s' : Scanner σ) (request : Request)
      (fault : Fault) (position : Position),
      s.perform request = (.error (.faulty fault position), s') → position = s'.position := by
  constructor
  · intro text o e h
    exact parse_error h
  · intro σ _ _ s s' request fault position h
    have hlocated := perform_located s request
    rw [h] at hlocated
    exact hlocated fault position rfl

/-- A NUL cuts off an array after a carriage return; and a character is not the expected one. -/
theorem faults_located_cutOff :
    parse "[1,\r\x00]" = .error (.faulty (.missingClosing .array) ⟨5, 2, 1⟩) ∧
      (⟨5, 2, 1⟩ : Position) =
        (Cursor.after ((untilEnd "[1,\r\x00]".toList ++ [endMark]).take 5)).position ∧
      ∃ s', (ofChars "a" {}).perform (.expect 'b') =
          (.error (.faulty (.unexpected 'b' 'a') ⟨1, 1, 2⟩), s') ∧ s'.position = ⟨1, 1, 2⟩ := by
  have hparse : parse "[1,\r\x00]" = .error (.faulty (.missingClosing .array) ⟨5, 2, 1⟩) :=
    eq_error_of_failure? (by decide +kernel)
  obtain ⟨fault, position, he, -, hposition⟩ := faults_located.1 _ _ _ hparse
  cases he
  obtain ⟨s', hs'⟩ : ∃ s', (ofChars "a" {}).perform (.expect 'b') =
      (.error (.faulty (.unexpected 'b' 'a') ⟨1, 1, 2⟩), s') := ⟨_, rfl⟩
  exact ⟨hparse, hposition, s', hs', (faults_located.2 _ _ _ _ _ _ hs').symm⟩

end LaxJson
