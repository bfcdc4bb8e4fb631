import LaxJson.Proofs.Scanner.Alike
import LaxJson.Proofs.Scanner.Invariant

/-!
# LaxJson.Proofs.Scanner.Search

What a search does in every state that a run of requests can reach.

* `Indistinct`: no run of requests tells the two scanners apart.
* `Seeks`: the outcome of a search, read off the characters left before the end of the input. A hit
  is reading up to the target and putting it back; a miss cannot be told from no search at all, or
  reports that its mark was lost.
* `seek_outcomes`: searches over texts and over recorders of sources that do not fail are like that
  after any requests, and a search over a source without marks changes nothing.
-/

namespace LaxJson

open CharSource (Yields Steady)

namespace Scanner

variable {σ : Type} [CharSource σ]

theorem released_text {s : Scanner TextSource} (h : s.source.marked = none) : s.released = s := by
  obtain ⟨⟨text, offset, marked⟩, cursor, options, depth⟩ := s
  cases h
  rfl

theorem released_recorder {s : Scanner (Recorder σ)} (h : s.source.mark = .unmarked) :
    s.released = s := by
  obtain ⟨⟨inner, replay, mark⟩, cursor, options, depth⟩ := s
  cases h
  rfl

variable [FiniteSource σ]

/-- The same answers and views to whatever is requested. -/
def Indistinct (s t : Scanner σ) : Prop :=
  ∀ requests, (s.run requests).1 = (t.run requests).1

/-- The outcome of a search for `target` when the source has `cs` to come, and keeps a mark for `n`
characters if `kept n`. -/
structure Seeks (kept : Nat → Prop) (s : Scanner σ) (cs : List Char) (target : Char) : Prop where
  found : target ∈ s.stream cs →
    let reads := List.replicate ((s.stream cs).idxOf target + 1) Request.next
    let t := (s.run (reads ++ [.stepBack])).2
    s.seek target = (.ok target, t.released) ∧ (s.released = s → t.released = t) ∧
      Indistinct t.released t
  missed : target ∉ s.stream cs → kept (handed s.cursor.pending cs).length →
    ∃ source, s.seek target = (.ok endMark, { s with source := source }) ∧
      Indistinct { s with source := source } s
  lost : target ∉ s.stream cs → ¬ kept (handed s.cursor.pending cs).length →
    (s.seek target).1 = .error (.source .markInvalid)

/-! ## One search -/

theorem perform_next (s : Scanner σ) : (s.perform .next).2 = s.next.2 := by
  rw [perform]
  rcases s.next with ⟨_ | _, s1⟩ <;> rfl

theorem perform_stepBack (s : Scanner σ) : (s.perform .stepBack).2 = s.stepBack.2 := by
  rw [perform]
  rcases s.stepBack with ⟨_ | _, s1⟩ <;> rfl

theorem run_append (s : Scanner σ) (before after : List Request) :
    (s.run (before ++ after)).2 = ((s.run before).2.run after).2 := by
  induction before generalizing s with
  | nil => rfl
  | cons request before ih => exact ih (s.perform request).2

theorem run_replicate_next (s : Scanner σ) (n : Nat) :
    (s.run (List.replicate n .next)).2 = s.nextTimes n := by
  induction n generalizing s with
  | zero => rfl
  | succ n ih =>
    calc (s.run (.next :: List.replicate n .next)).2
        = ((s.perform .next).2.run (List.replicate n .next)).2 := rfl
      _ = s.nextTimes (n + 1) := by rw [perform_next, ih, nextTimes]

theorem run_reads (s : Scanner σ) (n : Nat) :
    (s.run (List.replicate n .next ++ [.stepBack])).2 = (s.nextTimes n).stepBack.2 := by
  rw [run_append, run_replicate_next]
  exact perform_stepBack _

theorem indistinct_of_yields (m : Markable σ seekLimit) {s : Scanner σ} {source : σ}
    {cs : List Char} (h : Yields s.source cs) (hsource : Yields source cs) :
    Indistinct { s with source := source } s := by
  intro requests
  exact ((correspondence_of_markable m).run requests (.of_yields h hsource)).1

theorem seeks_of_yields (m : Markable σ seekLimit) {s : Scanner σ} {cs : List Char}
    (h : Yields s.source cs) (target : Char) : Seeks m.kept s cs target := by
  constructor
  · intro htarget reads t
    have ht : t = (s.nextTimes ((s.stream cs).idxOf target + 1)).stepBack.2 := run_reads s _
    rw [ht]
    have hstart : Lockstep (Alike fun _ => True) s s := .of_yields h h
    have hsame := (correspondence_of_markable m).nextTimes hstart
      ((s.stream cs).idxOf target + 1)
    obtain ⟨cs', hcs'⟩ := ((correspondence_of_markable m).stepBack hsame).2.exists_yields
    refine ⟨seek_found m h htarget, ?_, indistinct_of_yields m hcs' (m.yields_unmark hcs')⟩
    intro hrest
    exact stepBack_of_released m hrest _
  · intro htarget hkept
    obtain ⟨source, hseek, hsource⟩ := seek_missed m h htarget hkept
    exact ⟨_, hseek, indistinct_of_yields m h (m.yields_unmark hsource)⟩
  · intro htarget hlost
    obtain ⟨-, source, -, hseek, -⟩ := seek_lost m h htarget hlost
    rw [hseek]

/-! ## After any requests -/

theorem exists_yields_run (m : Markable σ seekLimit) {s : Scanner σ} {cs : List Char}
    (h : Yields s.source cs) (requests : List Request) :
    ∃ cs', Yields (s.run requests).2.source cs' :=
  ((correspondence_of_markable m).run requests (.of_yields h h)).2.exists_yields

/-- What reading keeps, and every mark that is released or lost has, holds between requests. -/
theorem resting (m : Markable σ seekLimit) {R : σ → Prop}
    (hread : ∀ s, R s → R (CharSource.read s).2)
    (hunmark : ∀ s, R (CharSource.unmark s))
    (hlost : ∀ {s s'}, CharSource.reset s = (.error .markInvalid, s') → R s') :
    Invariant fun s : Scanner σ => R s.source ∧ ∃ cs, Yields s.source cs where
  atDepth _ h := h
  next := by
    rintro s ⟨hrests, cs, hyields⟩
    refine ⟨?_, _, (next_of_yields hyields).2.2⟩
    rcases source_of_next s with hsame | hnext
    · rwa [hsame]
    · rw [hnext]
      exact hread s.source hrests
  stepBack := by
    intro s h
    rw [stepBack_snd]
    exact h
  seek := by
    rintro s ⟨-, cs, hyields⟩ target
    have hsame : Lockstep (Alike fun _ => True) s s := .of_yields hyields hyields
    refine ⟨?_, ((correspondence_of_markable m).seek hsame target).2.exists_yields⟩
    by_cases htarget : target ∈ s.stream cs
    · rw [seek_found m hyields htarget]
      exact hunmark _
    by_cases hkept : m.kept (handed s.cursor.pending cs).length
    · obtain ⟨source, hseek, -⟩ := seek_missed m hyields htarget hkept
      rw [hseek]
      exact hunmark _
    · obtain ⟨before, source, hreset, hseek, -⟩ := seek_lost m hyields htarget hkept
      rw [hseek]
      exact hlost hreset

/-- A text between requests carries no mark, unless it came with one. -/
theorem text_resting :
    Invariant fun s : Scanner TextSource => s.source.marked = none ∧ ∃ cs, Yields s.source cs := by
  apply resting (TextSource.markable seekLimit) (R := fun source => source.marked = none)
  · intro source h
    exact (TextSource.marked_snd source).trans h
  · intro source
    rfl
  · intro source source' h
    have hfailed : source.reset.1 = .error .markInvalid := congrArg Prod.fst h
    simp only [TextSource.reset] at hfailed
    split at hfailed
    · cases hfailed
    · exact absurd (Except.error.inj hfailed) (by decide)

/-- The only mark that a recorder carries between requests is one that was lost. -/
theorem recorder_resting :
    Invariant fun s : Scanner (Recorder σ) =>
      (s.source.mark = .unmarked ∨ s.source.mark = .invalidated) ∧ ∃ cs, Yields s.source cs := by
  apply resting (Recorder.markable seekLimit)
    (R := fun source => source.mark = .unmarked ∨ source.mark = .invalidated)
  · rintro ⟨inner, _ | ⟨c, rest⟩, m⟩ h
    · simp only [CharSource.read, Recorder.read]
      rcases CharSource.read inner with ⟨_ | _ | c, inner'⟩
      · exact h
      · exact h
      · rcases h with rfl | rfl
        · exact .inl rfl
        · exact .inr rfl
    · rcases h with rfl | rfl
      · exact .inl rfl
      · exact .inr rfl
  · intro source
    exact .inl rfl
  · rintro ⟨inner, replay, m⟩ source' h
    have hfailed : (Recorder.mk inner replay m).reset.1 = .error .markInvalid := congrArg Prod.fst h
    cases m with
    | unmarked => exact absurd (Except.error.inj hfailed) (by decide)
    | recording room seen => cases hfailed
    | invalidated =>
      cases h
      exact .inr rfl

/-- **A search is exact, and a miss is not noticed.** Let a scanner over a text, or over a recorder
of a source that does not fail and stays at its end, have served any requests, and let `cs` be what
its source has to come. Then a search goes as `Seeks` says: a text keeps its mark for good, a
recorder for `seekLimit` characters. No mark is set between requests, so that a hit leaves the very
state in which reading leaves the scanner; only a recorder that reported a lost mark carries it
until the next search. A source that refuses the mark is left as it is, and so is the scanner. -/
theorem seek_outcomes :
    (∀ (source : TextSource) (n : Nat), source.offset = TextSource.place source.text n →
      ∀ (options : Options) (requests : List Request),
        let s := ((ofSource source options).run requests).2
        (source.marked = none → s.released = s) ∧
          ∃ cs, Yields s.source cs ∧ ∀ target, Seeks (fun _ => True) s cs target) ∧
      (∀ (σ : Type) [CharSource σ] [FiniteSource σ] (source : Recorder σ), Steady source.inner →
        ∀ (options : Options) (requests : List Request),
          let s := ((ofSource source options).run requests).2
          (source.mark = .unmarked → s.released = s ∨ s.source.mark = .invalidated) ∧
            ∃ cs, Yields s.source cs ∧ ∀ target, Seeks (· ≤ seekLimit) s cs target) ∧
      (∀ (σ : Type) [CharSource σ] [FiniteSource σ] (s : Scanner σ) (target : Char),
        CharSource.mark s.source seekLimit = (.error .markUnsupported, s.source) →
          s.seek target = (.error (.source .markUnsupported), s)) := by
  refine ⟨?_, ?_, ?_⟩
  · intro source n hplace options requests s
    have hsource : Yields source _ := TextSource.yields_place hplace
    obtain ⟨cs, hcs⟩ := exists_yields_run (s := ofSource source options)
      (TextSource.markable seekLimit) hsource requests
    refine ⟨?_, cs, hcs, ?_⟩
    · intro hmarked
      exact released_text (text_resting.run requests ⟨hmarked, _, hsource⟩).1
    · intro target
      exact seeks_of_yields (TextSource.markable seekLimit) hcs target
  · intro σ _ _ source hsteady options requests s
    obtain ⟨ds, hds⟩ := hsteady.exists_yields
    have hsource : Yields source _ := source.yields_of_inner hds
    obtain ⟨cs, hcs⟩ := exists_yields_run (s := ofSource source options)
      (Recorder.markable seekLimit) hsource requests
    refine ⟨?_, cs, hcs, ?_⟩
    · intro hmark
      obtain ⟨hrests, -⟩ := recorder_resting.run requests (s := ofSource source options)
        ⟨.inl hmark, _, hsource⟩
      rcases hrests with hunmarked | hlost
      · exact .inl (released_recorder hunmarked)
      · exact .inr hlost
    · intro target
      exact seeks_of_yields (Recorder.markable seekLimit) hcs target
  · intro σ _ _ s target hmark
    simp only [seek, hmark]

/-- A recorder that has half replayed an earlier miss, with a character put back; and a source that
cannot mark. -/
theorem seek_outcomes_replayed :
    (let s := ((ofChars "ab\x7dc" {}).run [.next, .stepBack, .seek '#', .next, .next, .stepBack]).2
      ∃ cs, Yields s.source cs ∧ ∀ target, Seeks (· ≤ seekLimit) s cs target) ∧
      (ofSource (CharsSource.ofText "abc") {}).seek 'c' =
        (.error (.source .markUnsupported), ofSource (CharsSource.ofText "abc") {}) := by
  constructor
  · exact (seek_outcomes.2.1 CharsSource (.ofSource (.ofText "ab\x7dc"))
      (CharsSource.yields _).steady {} _).2
  · exact seek_outcomes.2.2 CharsSource _ 'c' rfl

end Scanner

end LaxJson
