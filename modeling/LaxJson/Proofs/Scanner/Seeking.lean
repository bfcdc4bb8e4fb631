import LaxJson.Proofs.Scanner.Ahead
import LaxJson.Proofs.Source.Marks
import LaxJson.Scanner.Seek

/-!
# LaxJson.Proofs.Scanner.Seeking

Searching ahead, over any source that keeps a mark. Which of its three outcomes a search has is read
off the characters left before the end of the input.

* `seek_found`: the target is among them. The scanner then stands where reading up to the target
  and putting it back leads, with the mark released.
* `seek_missed`: it is not, and the mark lasted. Only the source has changed, and it still yields
  the same characters.
* `seek_lost`: it is not, and the mark did not last. The scanner stays behind the end.
-/

namespace LaxJson

open CharSource (Yields)

/-- The characters that a source with `cs` to come hands out until the end of the input is seen. A
NUL that ends it is one of them; nothing is handed out when the end mark has been put back. -/
def handed (pending : Option Char) (cs : List Char) : List Char :=
  if pending = some endMark then [] else cs.take ((untilEnd cs).length + 1)

theorem handed_length (pending : Option Char) (cs : List Char) :
    (handed pending cs).length ≤ cs.length := by
  rw [handed]
  split
  · exact Nat.zero_le _
  · exact List.length_take_le' _ _

/-- At the end only what shows the end is handed out. -/
theorem handed_of_nil {pending : Option Char} {cs : List Char}
    (h : untilEnd (pending.toList ++ cs) = []) :
    handed pending cs = if pending = none then cs.head?.toList else [] := by
  cases pending with
  | some c =>
    by_cases hc : c = endMark
    · simp [handed, hc]
    · rw [Option.toList_some, List.singleton_append, untilEnd_cons hc] at h
      cases h
  | none =>
    rw [Option.toList_none, List.nil_append] at h
    cases cs with
    | nil => rfl
    | cons c cs => simp [handed, h]

/-- Before the end a character is handed out unless one was put back. -/
theorem handed_of_cons {pending : Option Char} {cs u : List Char} {c : Char}
    (h : untilEnd (pending.toList ++ cs) = c :: u) :
    handed pending cs = (if pending = none then cs.head?.toList else []) ++
      handed none (pending.toList ++ cs).tail := by
  cases pending with
  | some d =>
    have hd : d ≠ endMark := by
      rintro rfl
      rw [Option.toList_some, List.singleton_append, untilEnd_mark] at h
      cases h
    simp [handed, hd]
  | none =>
    rw [Option.toList_none, List.nil_append] at h
    cases cs with
    | nil => cases h
    | cons d cs =>
      have hd : d ≠ endMark := by
        rintro rfl
        rw [untilEnd_mark] at h
        cases h
      simp [handed, untilEnd_cons hd]

namespace Scanner

variable {σ : Type} [CharSource σ]

/-- The scanner after so many characters more have been read. -/
def nextTimes (s : Scanner σ) : Nat → Scanner σ
  | 0 => s
  | n + 1 => nextTimes s.next.2 n

/-- The scanner with the mark of its source released. -/
def released (s : Scanner σ) : Scanner σ := { s with source := CharSource.unmark s.source }

/-- What is left to read before the first end mark, pushback first, when the source still has `cs` to
hand out. -/
def stream (s : Scanner σ) (cs : List Char) : List Char :=
  untilEnd (s.cursor.pending.toList ++ cs)

/-! ## One character -/

theorem nextTimes_frame (s : Scanner σ) (n : Nat) :
    (s.nextTimes n).options = s.options ∧ (s.nextTimes n).depth = s.depth := by
  induction n generalizing s with
  | zero => exact ⟨rfl, rfl⟩
  | succ n ih =>
    obtain ⟨hoptions, hdepth⟩ := ih s.next.2
    exact ⟨hoptions.trans (next_frame s).1, hdepth.trans (next_frame s).2⟩

/-- Reading takes the first of the characters left, the pushback before those of the source. -/
theorem next_of_yields {s : Scanner σ} {cs : List Char} (h : Yields s.source cs) :
    s.next.1 = .ok ((s.cursor.pending.toList ++ cs).headD endMark) ∧
      s.next.2.cursor = s.cursor.advance ((s.cursor.pending.toList ++ cs).headD endMark) ∧
      Yields s.next.2.source (s.cursor.pending.toList ++ cs).tail := by
  obtain ⟨source, cursor, options, depth⟩ := s
  simp only at h
  simp only [next]
  cases cursor.pending with
  | some c => exact ⟨rfl, rfl, h⟩
  | none =>
    have hread : CharSource.read source = (.ok cs.head?, (CharSource.read source).2) :=
      Prod.ext h.head rfl
    rw [hread]
    simp only [Option.toList_none, List.nil_append, ← List.headD_eq_head?_getD]
    exact ⟨trivial, trivial, h.tail⟩

/-- What was read can be put back, whatever is done to the source. -/
theorem stepBack_next {s : Scanner σ} {cs : List Char} (h : Yields s.source cs) (source : σ) :
    { s.next.2 with source := source }.stepBack =
      (.ok (), { s.next.2 with source := source, cursor := s.next.2.cursor.stepBack }) := by
  obtain ⟨-, hcursor, -⟩ := next_of_yields h
  simp only [stepBack, hcursor, Cursor.advance, Option.isSome_none, Bool.false_eq_true, if_false,
    Nat.add_eq_zero_iff, Nat.succ_ne_self, and_false]

section Marks

variable {limit : Nat}

theorem next_released (m : Markable σ limit) (s : Scanner σ) :
    s.released.next = (s.next.1, s.next.2.released) := by
  obtain ⟨source, cursor, options, depth⟩ := s
  simp only [released, next]
  cases cursor.pending with
  | some c => rfl
  | none =>
    simp only [m.read_unmark]
    rcases CharSource.read source with ⟨_ | _, source'⟩ <;> rfl

theorem stepBack_released (s : Scanner σ) :
    s.released.stepBack = (s.stepBack.1, s.stepBack.2.released) := by
  rw [stepBack_snd]
  exact stepBack_frame s (CharSource.unmark s.source) s.options s.depth

theorem nextTimes_released (m : Markable σ limit) (s : Scanner σ) (n : Nat) :
    s.released.nextTimes n = (s.nextTimes n).released := by
  induction n generalizing s with
  | zero => rfl
  | succ n ih => rw [nextTimes, next_released m, ih]; rfl

/-- Where no mark is set, reading and putting back set none. -/
theorem stepBack_of_released (m : Markable σ seekLimit) {s : Scanner σ} (h : s.released = s)
    (n : Nat) :
    (s.nextTimes n).stepBack.2.released = (s.nextTimes n).stepBack.2 := by
  have hreads : (s.nextTimes n).released = s.nextTimes n := by
    rw [← nextTimes_released m, h]
  have hback := stepBack_released (s.nextTimes n)
  rw [hreads] at hback
  exact (congrArg Prod.snd hback).symm

/-- The scanner whose source has just been marked for a search. -/
def marked (s : Scanner σ) : Scanner σ :=
  { s with source := (CharSource.mark s.source seekLimit).2 }

/-- Reading on under a mark leads where reading on without it does. -/
theorem nextTimes_marked (m : Markable σ seekLimit) (s : Scanner σ) (n : Nat) :
    (s.marked.nextTimes n).released = (s.nextTimes n).released := by
  have hmarked : s.marked.released = s.released := by
    simp only [marked, released, m.unmark_mark]
  rw [← nextTimes_released m, hmarked, nextTimes_released m]

/-- `ps` was read since the mark, and `cs` is still to come. -/
structure Seeking (m : Markable σ limit) (s : Scanner σ) (ps cs : List Char) : Prop where
  since : m.Since s.source ps
  yields : Yields s.source cs

theorem Seeking.next {m : Markable σ limit} {s : Scanner σ} {ps cs : List Char}
    (h : Seeking m s ps cs) :
    Seeking m s.next.2 (ps ++ if s.cursor.pending = none then cs.head?.toList else [])
      (s.cursor.pending.toList ++ cs).tail := by
  refine ⟨?_, (next_of_yields h.yields).2.2⟩
  obtain ⟨source, cursor, options, depth⟩ := s
  have hsince := h.since
  simp only [Scanner.next]
  cases cursor.pending with
  | some c => simpa using hsince
  | none =>
    have hread : CharSource.read source = (.ok cs.head?, (CharSource.read source).2) :=
      Prod.ext h.yields.head rfl
    rw [hread, if_pos rfl]
    exact m.since_read hsince hread

end Marks

/-! ## The search -/

/-- While there is a character before the end, reading takes it. -/
theorem next_of_cons {s : Scanner σ} {cs u : List Char} {c : Char} (h : Yields s.source cs)
    (hu : s.stream cs = c :: u) :
    s.next = (.ok c, s.next.2) ∧ c ≠ endMark ∧ s.next.2.cursor.pending = none ∧
      s.next.2.stream (s.cursor.pending.toList ++ cs).tail = u := by
  obtain ⟨hanswer, hcursor, -⟩ := next_of_yields h
  have hpending : s.next.2.cursor.pending = none := congrArg Cursor.pending hcursor
  rw [stream] at hu
  have hne : untilEnd (s.cursor.pending.toList ++ cs) ≠ [] := hu ▸ List.cons_ne_nil c u
  rw [← headD_untilEnd, hu, List.headD_cons] at hanswer
  refine ⟨Prod.ext hanswer rfl, ?_, hpending, ?_⟩
  · rintro rfl
    exact not_mem_untilEnd _ (hu ▸ List.mem_cons_self)
  · rw [stream, hpending, Option.toList_none, List.nil_append, ← tail_untilEnd hne, hu,
      List.tail_cons]

theorem next_of_nil {s : Scanner σ} {cs : List Char} (h : Yields s.source cs)
    (hu : s.stream cs = []) : s.next = (.ok endMark, s.next.2) := by
  obtain ⟨hanswer, -⟩ := next_of_yields h
  rw [← headD_untilEnd, show untilEnd (s.cursor.pending.toList ++ cs) = [] from hu] at hanswer
  exact Prod.ext hanswer rfl

variable [FiniteSource σ]

theorem seekFrom_found {target : Char} {origin : Cursor} {before after : List Char}
    {s : Scanner σ} {cs : List Char} (h : Yields s.source cs)
    (hu : s.stream cs = before ++ target :: after)
    (hbefore : target ∉ before) :
    seekFrom target origin s =
      (.ok target, (s.nextTimes (before.length + 1)).stepBack.2.released) := by
  induction before generalizing s cs with
  | nil =>
    obtain ⟨hnext, hne, -⟩ := next_of_cons h hu
    rw [seekFrom_eq, hnext]
    simp only [hne, if_false, if_true]
    have hback : s.next.2.stepBack = _ := stepBack_next h s.next.2.source
    rw [stepBack_next h, List.length_nil, nextTimes, nextTimes, hback]
    rfl
  | cons c before ih =>
    obtain ⟨hnext, hne, hpending, htail⟩ := next_of_cons h hu
    have hc : c ≠ target := fun hc => hbefore (hc ▸ List.mem_cons_self)
    have hrest := ih (next_of_yields h).2.2 htail
      (fun hmem => hbefore (List.mem_cons_of_mem c hmem))
    rw [seekFrom_eq, hnext]
    simp only [hne, hc, if_false, hrest]
    rfl

/-- Without the target the search reads through the end of the input, and then asks for a reset. -/
theorem Seeking.seekFrom_ended {limit : Nat} {m : Markable σ limit} {target : Char}
    {s : Scanner σ} {ps cs : List Char} (h : Seeking m s ps cs) (origin : Cursor)
    (htarget : target ∉ s.stream cs) :
    let t := s.nextTimes ((s.stream cs).length + 1)
    (∃ rest, cs = handed s.cursor.pending cs ++ rest ∧
      Seeking m t (ps ++ handed s.cursor.pending cs) rest) ∧
      seekFrom target origin s =
        match CharSource.reset t.source with
        | (.error e, source) => (.error (.source e), { t with source := source })
        | (.ok (), source) =>
          (.ok endMark, { t with source := CharSource.unmark source, cursor := origin }) := by
  induction hu : s.stream cs generalizing s ps cs with
  | nil =>
    have hhanded := handed_of_nil hu
    have hnext := h.next
    refine ⟨⟨(s.cursor.pending.toList ++ cs).tail, ?_, ?_⟩, ?_⟩
    · rw [hhanded]
      cases s.cursor.pending with
      | some c => rfl
      | none => cases cs <;> rfl
    · rw [hhanded]
      exact hnext
    · rw [seekFrom_eq, next_of_nil h.yields hu]
      rfl
  | cons c u ih =>
    obtain ⟨hnext, hne, hpending, htail⟩ := next_of_cons h.yields hu
    rw [hu, List.mem_cons, not_or] at htarget
    obtain ⟨⟨rest, hrest, hend⟩, hseek⟩ := ih h.next (htail ▸ htarget.2) htail
    have hc : c ≠ target := Ne.symm htarget.1
    have hhanded := handed_of_cons hu
    rw [hpending] at hrest hend
    refine ⟨⟨rest, ?_, ?_⟩, ?_⟩
    · rw [hhanded, List.append_assoc, ← hrest]
      cases s.cursor.pending with
      | some c => rfl
      | none => cases cs <;> rfl
    · rw [hhanded, ← List.append_assoc]
      exact hend
    · rw [seekFrom_eq, hnext]
      simp only [hne, hc, if_false, hseek]
      rfl

/-! ## Outcomes -/

theorem seek_eq_seekFrom (m : Markable σ seekLimit) (s : Scanner σ) (target : Char) :
    s.seek target = seekFrom target s.cursor s.marked := by
  have hmark : CharSource.mark s.source seekLimit =
      (.ok (), (CharSource.mark s.source seekLimit).2) := Prod.ext (m.mark_ok s.source) rfl
  rw [seek, hmark]
  rfl

variable {s : Scanner σ} {cs : List Char} {target : Char}

theorem seek_found (m : Markable σ seekLimit) (h : Yields s.source cs)
    (htarget : target ∈ s.stream cs) :
    s.seek target =
      (.ok target, (s.nextTimes ((s.stream cs).idxOf target + 1)).stepBack.2.released) := by
  obtain ⟨before, after, hu, hbefore⟩ := List.eq_append_cons_of_mem htarget
  have hindex : (s.stream cs).idxOf target = before.length := by
    rw [hu, List.idxOf_append_of_notMem hbefore, List.idxOf_cons_self, Nat.add_zero]
  have hyields : Yields s.marked.source cs := m.yields_mark h
  rw [hindex, seek_eq_seekFrom m, seekFrom_found hyields hu hbefore]
  have hback : ∀ t : Scanner σ, t.stepBack.2.released = t.released.stepBack.2 :=
    fun t => (congrArg Prod.snd (stepBack_released t)).symm
  rw [hback, hback, nextTimes_marked m]

/-- Where a search without its target stands when it asks for a reset, and what it then does. -/
theorem seek_ended (m : Markable σ seekLimit) (h : Yields s.source cs)
    (htarget : target ∉ s.stream cs) :
    ∃ source rest, cs = handed s.cursor.pending cs ++ rest ∧
      m.Since source (handed s.cursor.pending cs) ∧ Yields source rest ∧
      CharSource.unmark source =
        CharSource.unmark (s.nextTimes ((s.stream cs).length + 1)).source ∧
      s.seek target =
        match CharSource.reset source with
        | (.error e, source') => (.error (.source e),
            { s.nextTimes ((s.stream cs).length + 1) with source := source' })
        | (.ok (), source') => (.ok endMark, { s with source := CharSource.unmark source' }) := by
  have hseeking : Seeking m s.marked [] cs := ⟨m.since_mark s.source, m.yields_mark h⟩
  obtain ⟨⟨rest, hrest, hend⟩, hseek⟩ := hseeking.seekFrom_ended s.cursor htarget
  -- under the mark everything but the source is as without it
  have hsame := nextTimes_marked m s ((s.stream cs).length + 1)
  have hcursor := congrArg Scanner.cursor hsame
  obtain ⟨hoptions, hdepth⟩ := nextTimes_frame s ((s.stream cs).length + 1)
  obtain ⟨hoptions', hdepth'⟩ := nextTimes_frame s.marked ((s.stream cs).length + 1)
  refine ⟨(s.marked.nextTimes ((s.stream cs).length + 1)).source, rest, hrest, hend.since,
    hend.yields, ?_, ?_⟩
  · simpa only [released] using congrArg Scanner.source hsame
  · have hstream : s.marked.stream cs = s.stream cs := rfl
    simp only [released] at hcursor
    rw [hstream] at hseek
    rw [seek_eq_seekFrom m, hseek]
    simp only [hoptions, hdepth, hoptions', hdepth', hcursor]
    rfl

/-- A search that misses under a mark that lasts has changed nothing but the source. -/
theorem seek_missed (m : Markable σ seekLimit) (h : Yields s.source cs)
    (htarget : target ∉ s.stream cs) (hkept : m.kept (handed s.cursor.pending cs).length) :
    ∃ source, s.seek target = (.ok endMark, { s with source := CharSource.unmark source }) ∧
      Yields source cs := by
  obtain ⟨source, rest, hrest, hsince, hyields, -, hseek⟩ := seek_ended m h htarget
  obtain ⟨hreset, hback⟩ := m.reset_kept hsince hyields hkept
  rw [show CharSource.reset source = (.ok (), (CharSource.reset source).2) from
    Prod.ext hreset rfl] at hseek
  exact ⟨(CharSource.reset source).2, hseek, hrest ▸ hback⟩

/-- A search that misses after its mark was lost stays behind the end. -/
theorem seek_lost (m : Markable σ seekLimit) (h : Yields s.source cs)
    (htarget : target ∉ s.stream cs) (hlost : ¬ m.kept (handed s.cursor.pending cs).length) :
    ∃ before source, CharSource.reset before = (.error .markInvalid, source) ∧
      s.seek target = (.error (.source .markInvalid),
        { s.nextTimes ((s.stream cs).length + 1) with source := source }) ∧
      ∃ rest, Yields source rest ∧ Yields (s.nextTimes ((s.stream cs).length + 1)).source rest := by
  obtain ⟨source, rest, -, hsince, hyields, hsame, hseek⟩ := seek_ended m h htarget
  obtain ⟨hfailed, hstay⟩ := m.reset_lost hsince hyields hlost
  have hreset : CharSource.reset source = (.error .markInvalid, (CharSource.reset source).2) :=
    Prod.ext hfailed rfl
  rw [hreset] at hseek
  exact ⟨source, (CharSource.reset source).2, hreset, hseek, rest, hstay,
    m.yields_of_unmark (hsame ▸ m.yields_unmark hyields)⟩

end Scanner

end LaxJson
