import LaxJson.Proofs.Scanner.Correspondence
import LaxJson.Proofs.Scanner.Seeking

/-!
# LaxJson.Proofs.Scanner.Alike

Sources of two kinds that have the same characters to come. What else they remember of the text, and
how they keep a mark, does not show in any run of requests as long as their marks last equally long:
scanners over them correspond (`correspondence_of_alike`).
-/

namespace LaxJson

open CharSource (Yields)

variable {σ τ : Type} [CharSource σ] [CharSource τ]

/-- The sources have the same characters to come, and these satisfy `P`. -/
def Alike (P : List Char → Prop) (s : σ) (t : τ) : Prop := ∃ cs, P cs ∧ Yields s cs ∧ Yields t cs

variable {P : List Char → Prop}

theorem Alike.read (htail : ∀ cs, P cs → P cs.tail) {s : σ} {t : τ} (h : Alike P s t) :
    (CharSource.read s).1 = (CharSource.read t).1 ∧
      Alike P (CharSource.read s).2 (CharSource.read t).2 := by
  obtain ⟨cs, hP, hs, ht⟩ := h
  exact ⟨hs.head.trans ht.head.symm, cs.tail, htail cs hP, hs.tail, ht.tail⟩

/-- What one source has to come, the other has. -/
theorem Alike.transfer {s s' : σ} {t t' : τ} {cs cs' : List Char} (h : Alike P s t)
    (hs : Yields s cs) (ht : Yields t cs') (hs' : Yields s' cs) (ht' : Yields t' cs') :
    Alike P s' t' := by
  obtain ⟨rest, hP, hrest, hrest'⟩ := h
  cases hs.unique hrest
  cases ht.unique hrest'
  exact ⟨_, hP, hs', ht'⟩

namespace Scanner

theorem Simulation.nextTimes {S : Scanner σ → Scanner τ → Prop} (h : Simulation S) {s : Scanner σ}
    {t : Scanner τ} (hst : S s t) (n : Nat) : S (s.nextTimes n) (t.nextTimes n) := by
  induction n generalizing s t with
  | zero => exact hst
  | succ n ih => exact ih (h.next hst).2

theorem Lockstep.released (m : Markable σ seekLimit) (m' : Markable τ seekLimit) {s : Scanner σ}
    {t : Scanner τ} (h : Lockstep (Alike P) s t) :
    Lockstep (Alike P) s.released t.released := by
  obtain ⟨cs, hP, hs, ht⟩ := h.source
  exact h.withSource ⟨cs, hP, m.yields_unmark hs, m'.yields_unmark ht⟩

theorem Lockstep.of_yields {s : Scanner σ} {source : σ} {cs : List Char} (h : Yields s.source cs)
    (hsource : Yields source cs) :
    Lockstep (Alike fun _ => True) { s with source := source } s :=
  ⟨⟨cs, trivial, hsource, h⟩, rfl, rfl, rfl⟩

theorem Lockstep.exists_yields {P : List Char → Prop} {s t : Scanner σ}
    (h : Lockstep (Alike P) s t) : ∃ cs, Yields t.source cs := by
  obtain ⟨cs, -, -, ht⟩ := h.source
  exact ⟨cs, ht⟩

variable [FiniteSource σ] [FiniteSource τ]

/-- Searches over sources alike agree if the marks last equally long. -/
theorem seek_alike (m : Markable σ seekLimit) (m' : Markable τ seekLimit)
    (htail : ∀ cs, P cs → P cs.tail)
    (hkept : ∀ cs, P cs → ∀ n ≤ cs.length, (m.kept n ↔ m'.kept n)) {s : Scanner σ} {t : Scanner τ}
    (h : Lockstep (Alike P) s t) (target : Char) :
    Agree (Lockstep (Alike P)) (s.seek target) (t.seek target) := by
  have hsim : Simulation (Lockstep (Alike P : σ → τ → Prop)) := .ofSources (Alike.read htail)
  obtain ⟨cs, hP, hs, ht⟩ := h.source
  have hstream : s.stream cs = t.stream cs := by rw [stream, stream, h.cursor]
  have hreads : Lockstep (Alike P) (s.nextTimes ((t.stream cs).length + 1))
      (t.nextTimes ((t.stream cs).length + 1)) := hsim.nextTimes h _
  by_cases htarget : target ∈ t.stream cs
  · rw [seek_found m hs (hstream ▸ htarget), seek_found m' ht htarget, hstream]
    exact ⟨rfl, (hsim.stepBack (hsim.nextTimes h _)).2.released m m'⟩
  by_cases hlasts : m'.kept (handed t.cursor.pending cs).length
  · have hlasts' : m.kept (handed s.cursor.pending cs).length := by
      rw [h.cursor]
      exact (hkept cs hP _ (handed_length _ cs)).mpr hlasts
    obtain ⟨source, hseek, hsource⟩ := seek_missed m hs (hstream ▸ htarget) hlasts'
    obtain ⟨source', hseek', hsource'⟩ := seek_missed m' ht htarget hlasts
    rw [hseek, hseek']
    exact ⟨rfl, h.withSource ⟨cs, hP, m.yields_unmark hsource, m'.yields_unmark hsource'⟩⟩
  · have hlost : ¬ m.kept (handed s.cursor.pending cs).length := by
      rw [h.cursor]
      exact fun hkeeps => hlasts ((hkept cs hP _ (handed_length _ cs)).mp hkeeps)
    obtain ⟨-, source, -, hseek, rest, hsource, hbehind⟩ := seek_lost m hs (hstream ▸ htarget) hlost
    obtain ⟨-, source', -, hseek', rest', hsource', hbehind'⟩ := seek_lost m' ht htarget hlasts
    rw [hstream] at hseek hbehind
    rw [hseek, hseek']
    exact ⟨rfl, hreads.withSource (hreads.source.transfer hbehind hbehind' hsource hsource')⟩

/-- **Only the characters to come matter.** Scanners in the same state over sources that hand out
the same characters answer every run of requests alike, as long as what one of the sources keeps a
mark for the other does as well. -/
theorem correspondence_of_alike (m : Markable σ seekLimit) (m' : Markable τ seekLimit)
    (htail : ∀ cs, P cs → P cs.tail)
    (hkept : ∀ cs, P cs → ∀ n ≤ cs.length, (m.kept n ↔ m'.kept n)) :
    Correspondence (Lockstep (Alike P : σ → τ → Prop)) where
  toSimulation := .ofSources (Alike.read htail)
  previous h := by simp only [Scanner.previous, h.cursor]
  seek h target := seek_alike m m' htail hkept h target

/-- Two sources of one kind, alike in what is to come, have scanners that correspond. -/
theorem correspondence_of_markable (m : Markable σ seekLimit) :
    Correspondence (Lockstep (Alike (fun _ => True) : σ → σ → Prop)) :=
  correspondence_of_alike m m (fun _ _ => trivial) (fun _ _ _ _ => Iff.rfl)

end Scanner

end LaxJson
