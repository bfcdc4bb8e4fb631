import LaxJson.Proofs.Scanner.Metering
import LaxJson.Source.Script

/-!
# LaxJson.Proofs.Scanner.Conduct

The scanner keeps its own rules. An operation puts a character back only right after it has read
one, and begins a container only at its opening bracket, whatever the source does and whatever was
requested before.

* `Failure.found`: the failures that this leaves.
* `perform_found`: a request fails only with one of these, unless it is putting back itself.
* `run_conduct`: so it is for every request of a run, over any source that is read finitely often.
-/

namespace LaxJson

/-- The failures that an operation may find: not that it was misused, nor that a container does not
begin where it was begun. -/
def Failure.found : Failure → Bool
  | .faulty fault _ => fault.found
  | .misused _ => false
  | .source _ => true
  | .oversized => true

/-- The message is about the bracket that an object or an array begins with. -/
def Failure.BlamesOpening (e : Failure) : Prop :=
  ∃ (k : Container) (m : String), e.message? = some m ∧
    (k.name ++ " text must begin with").toList <+: m.toList

/-- Lists that begin differently. -/
theorem not_prefix_of_head {α : Type} {xs ys zs : List α} {x y : α} (hx : xs.head? = some x)
    (hy : ys.head? = some y) (hne : x ≠ y) : ¬ xs <+: ys ++ zs := by
  rintro ⟨rest, hrest⟩
  have hhead := congrArg List.head? hrest
  rw [List.head?_append, List.head?_append, hx, hy, Option.some_or, Option.some_or] at hhead
  exact hne (Option.some.inj hhead)

theorem Fault.message_found {f : Fault} (h : f.found = true) (k : Container) :
    ¬ (k.name ++ " text must begin with").toList <+: f.message.toList := by
  cases f with
  | missingOpening => cases h
  | reported => cases h
  | unexpected wanted found =>
    -- the characters in the message come too late to matter
    unfold message
    simp only [String.toList_append, List.append_assoc]
    cases k with
    | object => exact not_prefix_of_head (x := 'o') (y := 'e') (by decide) (by decide) (by decide)
    | array => exact not_prefix_of_head (x := 'a') (y := 'e') (by decide) (by decide) (by decide)
  | duplicateKey key =>
    unfold message
    simp only [String.toList_append]
    cases k with
    | object => exact not_prefix_of_head (x := 'o') (y := 'd') (by decide) (by decide) (by decide)
    | array => exact not_prefix_of_head (x := 'a') (y := 'd') (by decide) (by decide) (by decide)
  | missingValue => cases k <;> decide
  | unterminatedString => cases k <;> decide
  | illegalEscape => cases k <;> decide
  | textTooShort => cases k <;> decide
  | trailingCharacters => cases k <;> decide
  | missingClosing c => cases k <;> cases c <;> decide
  | missingSeparator c => cases k <;> cases c <;> decide
  | tooDeep c => cases k <;> cases c <;> decide
  | compositeKey => cases k <;> decide
  | missingColon => cases k <;> decide

theorem Failure.not_misused {e : Failure} (h : e.found = true) (m : Misuse) : e ≠ .misused m := by
  rintro rfl
  cases h

theorem Failure.not_blamesOpening {e : Failure} (h : e.found = true ∨ ∃ m, e = .misused m) :
    ¬ e.BlamesOpening := by
  rintro ⟨k, m, hm, hbegins⟩
  rcases h with hfound | ⟨misuse, rfl⟩
  · cases e with
    | faulty fault position =>
      cases hm
      exact Fault.message_found hfound k hbegins
    | misused => cases hm
    | source => cases hm
    | oversized => cases hm
  · cases hm

namespace Scanner

variable {σ : Type} [CharSource σ]

theorem next_found (s : Scanner σ) : ∀ e, failure? s.next.1 = some e → e.found = true := by
  rcases hn : s.next with ⟨e | c, s'⟩
  · obtain ⟨⟨cause, rfl⟩, -⟩ := next_error hn
    rintro _ ⟨⟩
    rfl
  · rintro _ ⟨⟩

/-- Every failure that a run ends with was found. -/
def conduct : Course σ where
  Runs _ e _ := ∀ f, e = some f → f.found = true
  Ready _ := True
  ready _ := trivial
  refl _ := by rintro _ ⟨⟩
  fault _ _ hf := by
    rintro _ ⟨⟩
    exact hf
  trans _ h := h
  next _ := next_found _
  stepBack _ := by rintro _ ⟨⟩
  nested h := h

theorem conduct_indifferent : (conduct : Course σ).Indifferent where
  ready _ := trivial
  moved _ _ _ := by rintro _ ⟨⟩
  refused _ _ _ := by
    rintro _ ⟨⟩
    rfl

variable [FiniteSource σ]

/-- Whatever is requested, short of putting back, only fails with what is found. -/
theorem perform_found {s s' : Scanner σ} {request : Request} {e : Failure}
    (hrequest : request ≠ .stepBack) (h : s.perform request = (.error e, s')) :
    e.found = true := by
  refine conduct.perform (s := s) trivial request (fun hback => absurd hback hrequest)
    (conduct_indifferent.seek s) ?_ e (by rw [h]; rfl)
  rintro n - _ ⟨⟩
  rfl

/-- Putting back only ever fails because of a misuse. -/
theorem perform_stepBack_misused {s s' : Scanner σ} {e : Failure}
    (h : s.perform .stepBack = (.error e, s')) : ∃ m, e = .misused m := by
  rw [perform, stepBack] at h
  split at h
  · cases h
    exact ⟨_, rfl⟩
  · split at h
    · cases h
      exact ⟨_, rfl⟩
    · cases h

/-- Each answer of a run is what its request answers at some point. -/
theorem exists_perform_of_run {s : Scanner σ} {requests : List Request} {i : Nat}
    {request : Request} {answer : Except Failure Reply} {view : View}
    (hi : requests[i]? = some request) (h : (s.run requests).1[i]? = some (answer, view)) :
    ∃ t t' : Scanner σ, t.perform request = (answer, t') := by
  induction requests generalizing s i with
  | nil => cases hi
  | cons first rest ih =>
    rw [run] at h
    rcases hp : s.perform first with ⟨answer', s1⟩
    rw [hp] at h
    cases i with
    | zero =>
      cases hi
      cases h
      exact ⟨s, s1, hp⟩
    | succ i => exact ih hi h

/-- So it is in a run, after whatever came before. -/
theorem run_found {s : Scanner σ} {requests : List Request} {i : Nat} {request : Request}
    {e : Failure} {view : View} (hi : requests[i]? = some request)
    (h : (s.run requests).1[i]? = some (.error e, view)) :
    (request ≠ .stepBack → ∀ m, e ≠ .misused m) ∧ ¬ e.BlamesOpening := by
  obtain ⟨t, t', ht⟩ := exists_perform_of_run hi h
  by_cases hrequest : request = .stepBack
  · subst hrequest
    exact ⟨fun hne => absurd rfl hne,
      Failure.not_blamesOpening (.inr (perform_stepBack_misused ht))⟩
  · have hfound := perform_found hrequest ht
    exact ⟨fun _ => Failure.not_misused hfound, Failure.not_blamesOpening (.inl hfound)⟩

theorem document_found {s s' : Scanner σ} {e : Failure} (h : s.document = (.error e, s')) :
    e.found = true :=
  (conduct.logic.document (s := s) trivial).runs e (by rw [h]; rfl)

/-- **The scanner never misuses itself.** Over every source, whatever its reads answer, and after
every list of requests, no request but putting back fails because of a misuse, and none with the
message that an object or an array must begin with its bracket. Of a source that is not finite, as
many reads are allowed as one likes; until they are used up this makes no difference (`run_allow`).
And no document is refused in this way. -/
theorem run_conduct :
    (∀ (σ : Type) [CharSource σ] [FiniteSource σ] (source : σ) (o : Options)
      (requests : List Request) (i : Nat) (request : Request) (e : Failure) (view : View),
      requests[i]? = some request →
      ((ofSource source o).run requests).1[i]? = some (.error e, view) →
      (request ≠ .stepBack → ∀ m, e ≠ .misused m) ∧ ¬ e.BlamesOpening) ∧
    (∀ (σ : Type) [CharSource σ] (source : σ) (reads : Nat) (o : Options)
      (requests : List Request) (i : Nat) (request : Request) (e : Failure) (view : View),
      requests[i]? = some request →
      ((ofSource (MeteredSource.mk source reads) o).run requests).1[i]? = some (.error e, view) →
      (request ≠ .stepBack → ∀ m, e ≠ .misused m) ∧ ¬ e.BlamesOpening) ∧
    ∀ (σ : Type) [CharSource σ] [FiniteSource σ] (s s' : Scanner σ) (e : Failure),
      s.document = (.error e, s') → (∀ m, e ≠ .misused m) ∧ ¬ e.BlamesOpening := by
  refine ⟨?_, ?_, ?_⟩
  · intro σ _ _ source o requests i request e view hi h
    exact run_found hi h
  · intro σ _ source reads o requests i request e view hi h
    exact run_found hi h
  · intro σ _ _ s s' e h
    have hfound := document_found h
    exact ⟨Failure.not_misused hfound, Failure.not_blamesOpening (.inl hfound)⟩

/-- A source that fails in the middle of an array and ends after that. The bracket was put back by
then, and putting back once more is a misuse. -/
theorem run_conduct_failing :
    let lost : SourceError := ⟨.connectionReset, "connection reset"⟩
    let source : ScriptSource := ⟨[.ok (some '['), .error lost, .ok none, .ok (some '1')]⟩
    let requests : List Request := [.value, .stepBack, .stepBack, .value]
    let e : Failure := .faulty (.missingClosing .array) ⟨2, 1, 3⟩
    let view : View := ⟨⟨2, 1, 3⟩, endMark, true⟩
    requests[3]? = some .value ∧ ((ofSource source {}).run requests).1[3]? = some (.error e, view) ∧
      (∀ m, e ≠ .misused m) ∧ ¬ e.BlamesOpening := by
  intro lost source requests e view
  have hi : requests[3]? = some .value := rfl
  have hrun : ((ofSource source {}).run requests).1[3]? = some (.error e, view) := by
    with_unfolding_all rfl
  obtain ⟨hmisused, hblames⟩ := run_conduct.1 ScriptSource source {} requests 3 .value e view hi hrun
  exact ⟨hi, hrun, hmisused (by rintro ⟨⟩), hblames⟩

end Scanner

end LaxJson
