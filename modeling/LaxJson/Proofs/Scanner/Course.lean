import LaxJson.Proofs.Scanner.Logic
import LaxJson.Session

/-!
# LaxJson.Proofs.Scanner.Course

What a run does to the scanner that it starts from. A `Course` relates a scanner, the failure with
which a run from it ends, if any, and the scanner after the run; it is kept by single steps and
by going on after success. `Course.logic` turns it into a logic of one side, so that every operation
runs its course, and so does every request (`Course.perform`).
-/

namespace LaxJson
namespace Scanner

open Operation

/-- The failure with which a run ended. -/
def failure? {α : Type} : Except Failure α → Option Failure
  | .ok _ => none
  | .error e => some e

theorem eq_error_of_failure? {α : Type} {r : Except Failure α} {e : Failure}
    (h : failure? r = some e) : r = .error e := by
  cases r with
  | ok a => cases h
  | error e' => exact congrArg Except.error (Option.some.inj h)

variable {σ : Type} [CharSource σ]

/-- `Runs s e s'` is what is said of a run from `s` that ends with `s'` and with the failure `e`. -/
structure Course (σ : Type) [CharSource σ] where
  Runs : Scanner σ → Option Failure → Scanner σ → Prop
  Ready : Scanner σ → Prop
  ready : ∀ {s : Scanner σ}, s.atEnd = false → Ready s
  refl : ∀ s : Scanner σ, Runs s none s
  fault : ∀ (s : Scanner σ) {f : Fault}, f.found = true → Runs s (some (s.faultHere f)) s
  trans : ∀ {s s1 s2 : Scanner σ} {e : Option Failure}, Runs s none s1 → Runs s1 e s2 → Runs s e s2
  next : ∀ {s : Scanner σ}, Ready s → Runs s (failure? s.next.1) s.next.2
  stepBack : ∀ {c : Char} {s : Scanner σ}, Handed c s →
    Runs s none { s with cursor := s.cursor.stepBack }
  nested : ∀ {s s1 : Scanner σ} {e : Option Failure}, Runs s.enter e s1 → Runs s e s1.leave

namespace Course

variable (C : Course σ)

/-- The operation succeeds only with answers that have a counterpart, and runs its course. -/
structure Keeps {α β : Type} (R : α → β → Prop) (p : Operation σ α) (s : Scanner σ) : Prop where
  answer : ∀ a, (p s).1 = .ok a → ∃ b, R a b
  runs : C.Runs s (failure? (p s).1) (p s).2

theorem Keeps.andThen {α β α' β' : Type} {Q : α → α' → Prop} {R : β → β' → Prop}
    {p : Operation σ α} {q : α → Operation σ β} {s : Scanner σ} (h : C.Keeps Q p s)
    (hrest : ∀ a a' s1, p s = (.ok a, s1) → Q a a' → C.Keeps R (q a) s1) :
    C.Keeps R (p.andThen q) s := by
  obtain ⟨hanswer, hruns⟩ := h
  rcases hp : p s with ⟨e | a, s1⟩
  · rw [hp] at hruns
    constructor
    · rw [andThen_error hp]
      rintro _ ⟨⟩
    · rw [andThen_error hp]
      exact hruns
  · obtain ⟨a', ha'⟩ := hanswer a (by rw [hp])
    obtain ⟨hanswer', hruns'⟩ := hrest a a' s1 hp ha'
    rw [hp] at hruns
    constructor
    · rw [andThen_ok hp]
      exact hanswer'
    · rw [andThen_ok hp]
      exact C.trans hruns hruns'

theorem Keeps.nested {α β : Type} {R : α → β → Prop} {p : Operation σ α} {s : Scanner σ}
    (k : Container) (h : C.Keeps R p s.enter) : C.Keeps R (Operation.nested k p) s := by
  unfold Operation.nested
  constructor
  · split
    · rintro _ ⟨⟩
    · exact h.answer
  · split
    · exact C.fault s rfl
    · exact C.nested h.runs

theorem Keeps.adding {α β : Type} {R : α → β → Prop} {ms : Members Value} {key : String}
    {p : (Value → Members Value) → Operation σ α} {s : Scanner σ}
    (h : C.Keeps R (p (addMember s.options ms key)) s) :
    C.Keeps R (Operation.adding ms key p) s := by
  unfold Operation.adding
  constructor
  · split
    · rintro _ ⟨⟩
    · exact h.answer
  · split
    · exact C.fault s rfl
    · exact h.runs

theorem keeps_eq {α : Type} {p : Operation σ α} {s : Scanner σ}
    (h : C.Runs s (failure? (p s).1) (p s).2) : C.Keeps Eq p s :=
  ⟨fun a _ => ⟨a, rfl⟩, h⟩

/-- The course of a run as a logic. -/
def logic : ValueLogic σ σ :=
  Logic.valueLogic
    { Holds := fun R p _ s => C.Keeps R p s
      Ready := C.Ready
      ready := C.ready
      answer := fun hR => ⟨fun a ha => ⟨_, Except.ok.inj ha ▸ hR⟩, C.refl _⟩
      fault := fun hf => ⟨nofun, C.fault _ hf⟩
      andThen := Keeps.andThen C
      next := fun hs => C.keeps_eq (C.next hs)
      stepBack := fun h => C.keeps_eq (by rw [h.stepBack]; exact C.stepBack h) }
    (Keeps.nested C) (fun h => Keeps.adding C (h _))

/-- A course that says nothing of source and cursor after a success, and lets a source fail. -/
structure Indifferent : Prop where
  ready : ∀ s, C.Ready s
  moved : ∀ (s : Scanner σ) (source : σ) (cursor : Cursor), C.Runs s none { s with source, cursor }
  refused : ∀ (s : Scanner σ) (source : σ) (e : SourceError),
    C.Runs s (some (.source e)) { s with source }

namespace Indifferent

variable {C}

theorem keeps_rewind (h : C.Indifferent) (origin : Cursor) (s : Scanner σ) :
    C.Keeps Eq (rewind origin) s := by
  apply C.keeps_eq
  rw [rewind]
  rcases CharSource.reset s.source with ⟨e | _, source⟩
  · exact h.refused s source e
  · exact h.moved s (CharSource.unmark source) origin

/-- The target that was found has just been read, so that it can be put back. -/
theorem keeps_settle (h : C.Indifferent) {c : Char} {s : Scanner σ} (hs : Handed c s)
    (target : Char) : C.Keeps Eq (settle target) s := by
  have hreleased : Handed c { s with source := CharSource.unmark s.source } :=
    ⟨hs.pending, hs.index, hs.previous, hs.atEnd⟩
  apply C.keeps_eq
  rw [settle, andThen_ok hreleased.stepBack]
  exact C.trans (h.moved s _ s.cursor) (C.stepBack hreleased)

variable [FiniteSource σ]

/-- A search runs a course that does not mind where it goes. -/
theorem seek (h : C.Indifferent) (s : Scanner σ) (target : Char) :
    C.Runs s (failure? (s.seek target).1) (s.seek target).2 := by
  unfold Scanner.seek
  split
  · exact h.refused s _ _
  · exact C.trans (h.moved s _ s.cursor)
      (C.logic.seekFrom (h.ready _) (h.keeps_rewind s.cursor)
        fun _ _ hs => h.keeps_settle hs target).runs

end Indifferent

/-- A request runs its course. What putting back, searching and asking for too much do is said
apart: the course says nothing about the first two in general, and the last is not put together from
steps. -/
theorem perform [FiniteSource σ] {s : Scanner σ} (hs : C.Ready s) (request : Request)
    (hback : request = .stepBack → C.Runs s (failure? s.stepBack.1) s.stepBack.2)
    (hseek : ∀ target, C.Runs s (failure? (s.seek target).1) (s.seek target).2)
    (htake : ∀ n, capacity < n → C.Runs s (some .oversized) s) :
    C.Runs s (failure? (s.perform request).1) (s.perform request).2 := by
  refine (C.logic.perform hs request (fun h => C.keeps_eq (hback h)) (C.logic.value hs)
    (fun target => C.keeps_eq (hseek target)) fun n hn => C.keeps_eq ?_).runs
  rw [take_of_lt hn]
  exact htake n hn

end Course

/-- However a run ends, the options and the number of open containers are as before. -/
def framing : Course σ where
  Runs s _ s' := s'.options = s.options ∧ s'.depth = s.depth
  Ready _ := True
  ready _ := trivial
  refl _ := ⟨rfl, rfl⟩
  fault _ _ _ := ⟨rfl, rfl⟩
  trans h h' := ⟨h'.1.trans h.1, h'.2.trans h.2⟩
  next _ := next_frame _
  stepBack _ := ⟨rfl, rfl⟩
  nested h := ⟨h.1, congrArg Nat.pred h.2⟩

theorem value_frame [FiniteSource σ] (s : Scanner σ) :
    s.value.2.options = s.options ∧ s.value.2.depth = s.depth :=
  (framing.logic.value (s := s) trivial).runs

end Scanner

end LaxJson
