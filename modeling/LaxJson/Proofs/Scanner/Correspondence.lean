import LaxJson.Proofs.Scanner.Simulation
import LaxJson.Session

/-!
# LaxJson.Proofs.Scanner.Correspondence

Simulations that extend to whole runs of requests. A simulation says nothing of searching ahead; a
`Correspondence` is one that searching keeps as well, and then every request gives the same answer
on both sides: `Correspondence.perform`, and by induction `Correspondence.run`.
-/

namespace LaxJson
namespace Scanner

variable {σ τ : Type}

variable [CharSource σ] [CharSource τ] [FiniteSource σ] [FiniteSource τ]

/-- A simulation whose scanners also show the same character read last, and search alike. -/
structure Correspondence (S : Scanner σ → Scanner τ → Prop) : Prop extends Simulation S where
  previous : ∀ {s t}, S s t → s.previous = t.previous
  seek : ∀ {s t}, S s t → ∀ target, Agree S (s.seek target) (t.seek target)

namespace Correspondence

variable {S : Scanner σ → Scanner τ → Prop}

theorem view (h : Correspondence S) {s : Scanner σ} {t : Scanner τ} (hst : S s t) :
    s.view = t.view := by
  simp only [Scanner.view, h.position hst, h.previous hst, h.atEnd hst]

/-- One request: the same answer, and scanners that still correspond. -/
theorem perform (h : Correspondence S) {s : Scanner σ} {t : Scanner τ} (hst : S s t)
    (request : Request) : Agree S (s.perform request) (t.perform request) := by
  have hseek (target : Char) : Mirrors S Eq (fun s => s.seek target) (fun s => s.seek target) s :=
    Mirrors.of_agree fun hst => h.seek hst target
  have htake (n : Nat) : Mirrors S Eq (fun s => s.take n) (fun s => s.take n) s :=
    Mirrors.of_agree fun hst => h.take hst n
  exact h.agree (h.logic.perform trivial request (fun _ => Mirrors.of_agree h.stepBack)
    (h.valueLogic.value trivial) hseek fun n _ => htake n) hst

/-- A run of requests: the same answers with the same views. -/
theorem run (h : Correspondence S) (requests : List Request) {s : Scanner σ} {t : Scanner τ}
    (hst : S s t) : (s.run requests).1 = (t.run requests).1 ∧
      S (s.run requests).2 (t.run requests).2 := by
  induction requests generalizing s t with
  | nil => exact ⟨rfl, hst⟩
  | cons request rest ih =>
    obtain ⟨hanswer, hnext⟩ := h.perform hst request
    obtain ⟨hanswers, hend⟩ := ih hnext
    refine ⟨?_, hend⟩
    simp only [Scanner.run, hanswer, h.view hnext, hanswers]

end Correspondence

end Scanner

end LaxJson
