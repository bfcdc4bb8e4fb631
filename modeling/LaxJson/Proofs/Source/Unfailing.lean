import LaxJson.Proofs.Source.Metered
import LaxJson.Session
import LaxJson.Source.Script

/-!
# LaxJson.Proofs.Source.Unfailing

A source that does not fail in a read, whatever is requested of it. It may refuse a mark or a reset,
and it may go on after its end.

* `Unfailing.exists_gives`: a source like that, if it is finite, gives a list of characters and then
  the end.
* `unfailing_of_kept`: how to see that a source does not fail. `ScriptSource.unfailing` is a script
  without a failure, `MeteredSource.unfailing` a source like that for a number of reads.
-/

namespace LaxJson

namespace CharSource

variable {σ : Type} [CharSource σ] {s : σ}

/-- After any requests, a read answers a character or the end. -/
def Unfailing (s : σ) : Prop := ∀ requests, ∃ answer, (read (run s requests).2).1 = .ok answer

theorem Unfailing.perform (h : Unfailing s) (request : SourceRequest) :
    Unfailing (perform s request).2 :=
  fun requests => h (request :: requests)

/-- What every request keeps, and what keeps reads from failing. -/
theorem unfailing_of_kept {P : σ → Prop} (hread : ∀ s, P s → ∃ answer, (read s).1 = .ok answer)
    (hkept : ∀ s request, P s → P (CharSource.perform s request).2) (h : P s) : Unfailing s := by
  intro requests
  induction requests generalizing s with
  | nil => exact hread s h
  | cons request rest ih => exact ih (hkept s request h)

/-- A finite source comes to its end, unless a read fails. -/
theorem Unfailing.exists_gives [FiniteSource σ] (h : Unfailing s) : ∃ cs, Gives cs s := by
  induction hn : FiniteSource.size s using Nat.strongRecOn generalizing s with
  | ind n ih =>
    subst hn
    obtain ⟨_ | c, hanswer⟩ := h []
    · exact ⟨[], hanswer⟩
    · have hrest := h.perform .read
      rw [perform_read] at hrest
      obtain ⟨cs, hcs⟩ := ih _ (FiniteSource.size_read_some (Prod.ext hanswer rfl)) hrest rfl
      exact ⟨c :: cs, hanswer, hcs⟩

end CharSource

open CharSource (Unfailing unfailing_of_kept)

theorem ScriptSource.unfailing {s : ScriptSource} (h : ∀ a ∈ s.answers, ∃ answer, a = .ok answer) :
    Unfailing s := by
  apply unfailing_of_kept (P := fun s => ∀ a ∈ s.answers, ∃ answer, a = .ok answer)
  · rintro ⟨_ | ⟨a, rest⟩⟩ h
    · exact ⟨none, rfl⟩
    · exact h a List.mem_cons_self
  · rintro ⟨answers⟩ request h
    cases request with
    | read =>
      rw [CharSource.perform_read]
      cases answers with
      | nil => exact h
      | cons a rest => exact fun b hb => h b (List.mem_cons_of_mem a hb)
    | mark | reset | unmark => exact h
  · exact h

theorem MeteredSource.unfailing {σ : Type} [CharSource σ] {s : MeteredSource σ}
    (h : Unfailing s.inner) : Unfailing s := by
  apply unfailing_of_kept (P := fun s : MeteredSource σ => Unfailing s.inner)
  · rintro ⟨inner, _ | budget⟩ h
    · exact ⟨none, rfl⟩
    · exact h []
  · rintro ⟨inner, budget⟩ request h
    have hinner := h.perform request
    cases request with
    | read =>
      rw [CharSource.perform_read] at hinner ⊢
      cases budget with
      | zero => exact h
      | succ budget => exact hinner
    | mark limit => rwa [CharSource.perform_mark] at hinner ⊢
    | reset => rwa [CharSource.perform_reset] at hinner ⊢
    | unmark => exact hinner
  · exact h

end LaxJson
