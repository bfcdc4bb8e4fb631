import LaxJson.Proofs.Scanner.Offers
import LaxJson.Proofs.Scanner.Search
import LaxJson.Proofs.Scanner.Within

/-!
# LaxJson.Proofs.Scanner.Peeking

Asking whether a character is left. The answer is found by reading the character and putting it
back, which takes up the only place there is for a character put back.

* `perform_of_next`: scanners that come to the same by reading one character serve every request
  that begins by reading alike.
* `Peeked`: a scanner over a text, and the same scanner with its next character put back.
* `reports_peeked`: no run of requests tells these two apart before it asks for putting back at the
  very place.
* `run_hasNext`: so peeking, however often, is not noticed in what follows.
-/

namespace LaxJson

open CharSource (Yields)

/-- The requests that begin by reading a character. -/
def Request.reads : Request → Bool
  | .stepBack => false
  | .take n => 0 < n && n ≤ Scanner.capacity
  | .seek _ => false
  | _ => true

namespace Scanner

open Operation

section Sources

variable {σ : Type} [CharSource σ]

theorem andThen_of_next {α : Type} {s t : Scanner σ} (h : s.next = t.next)
    (q : Char → Operation σ α) : andThen next q s = andThen next q t := by
  simp only [andThen, h]

theorem hasNext_of_next {s s1 : Scanner σ} {c : Char} (hn : s.next = (.ok c, s1)) :
    s.hasNext =
      if c = endMark then (.ok false, s1) else (.ok true, s1.stepBack.2) := by
  have hs1 := next_handed hn
  rw [hasNext_steps, andThen_ok hn]
  by_cases hc : c = endMark
  · rw [if_pos hc, if_pos hc]
    rfl
  · rw [if_neg hc, if_neg hc, andThen_ok hs1.stepBack, hs1.stepBack]
    rfl

variable [FiniteSource σ]

theorem nextSolid_of_next {s t : Scanner σ} (h : s.next = t.next) : s.nextSolid = t.nextSolid := by
  rw [nextSolid_steps]
  exact andThen_of_next h _

/-- A request that begins by reading only depends on what reading comes to. -/
theorem perform_of_next {s t : Scanner σ} (h : s.next = t.next) {request : Request}
    (hreads : request.reads = true) : s.perform request = t.perform request := by
  cases request with
  | stepBack | seek target => cases hreads
  | next => exact congrArg (reply .char) h
  | hasNext =>
    refine congrArg (reply .flag) ?_
    rw [hasNext_steps]
    exact andThen_of_next h _
  | expect c =>
    refine congrArg (reply .char) ?_
    exact (congrFun (expect_steps c) s).trans
      ((andThen_of_next h _).trans (congrFun (expect_steps c) t).symm)
  | take n =>
    obtain ⟨hpos, hle⟩ := Bool.and_eq_true_iff.mp hreads
    obtain ⟨n, rfl⟩ :=
      Nat.exists_eq_succ_of_ne_zero (Nat.pos_iff_ne_zero.mp (of_decide_eq_true hpos))
    refine congrArg (reply .text) ?_
    rw [take_of_le (of_decide_eq_true hle), take_of_le (of_decide_eq_true hle)]
    exact (congrFun (takeFrom_steps [] n) s).trans
      ((andThen_of_next h _).trans (congrFun (takeFrom_steps [] n) t).symm)
  | nextSolid => exact congrArg (reply .char) (nextSolid_of_next h)
  | quoted quote =>
    refine congrArg (reply .text) ?_
    rw [quoted, quoted, quotedFrom_steps]
    exact andThen_of_next h _
  | fieldTo delimiter =>
    refine congrArg (reply .text) ?_
    rw [fieldTo, fieldTo, fieldFrom_steps]
    exact andThen_of_next h _
  | fieldToAny delimiters =>
    refine congrArg (reply .text) ?_
    rw [fieldToAny, fieldToAny, fieldFrom_steps]
    exact andThen_of_next h _
  | value =>
    refine congrArg (reply .value) ?_
    rw [value_steps]
    simp only [andThen, nextSolid_of_next h]

/-- What a run of requests answers, with the position after each of them. -/
def reports (s : Scanner σ) (requests : List Request) : List (Except Failure Reply × Position) :=
  (s.run requests).1.map fun p => (p.1, p.2.position)

theorem run_cons_snd (s : Scanner σ) (request : Request) (rest : List Request) :
    (s.run (request :: rest)).2 = ((s.perform request).2.run rest).2 := rfl

theorem reports_cons (s : Scanner σ) (request : Request) (rest : List Request) :
    s.reports (request :: rest) =
      ((s.perform request).1, (s.perform request).2.position) ::
        (s.perform request).2.reports rest := rfl

end Sources

/-! ## Texts -/

/-- How much has been read is where the source stands. -/
theorem Stands.offset {text : String} {offset : String.Pos.Raw} {k : Cursor}
    (h : Stands text offset k) : offset = TextSource.place text k.taken := by
  cases h with
  | read i =>
    rw [Cursor.taken, Cursor.after_pending, Cursor.after_index, length_itemsBefore]
    rfl
  | putBack i =>
    rw [Cursor.taken, pending_putBack, index_stepBack]
    rfl

/-- What is left to read starts at the index. -/
theorem Tracks.stream {text : String} {s : Scanner TextSource} (h : Tracks text s) :
    ∃ cs, Yields s.source cs ∧ s.stream cs = untilEnd (text.toList.drop s.cursor.index) := by
  obtain ⟨hsource, hstands⟩ := h
  have hyields : Yields s.source (s.source.text.toList.drop s.cursor.taken) :=
    TextSource.yields_place (hsource ▸ hstands.offset)
  refine ⟨_, hyields, ?_⟩
  rw [hsource, Scanner.stream]
  obtain ⟨-, ⟨hpending, -⟩ | ⟨hpending, -⟩⟩ := hstands.shows
  · rw [Cursor.taken, hpending]
    rfl
  · rw [Cursor.taken, hpending, Option.toList_some, List.singleton_append, List.length_singleton,
      item]
    rcases Nat.lt_or_ge s.cursor.index text.toList.length with hlt | hge
    · rw [List.getElem?_eq_getElem hlt, Option.getD_some, ← List.drop_eq_getElem_cons hlt]
    · rw [List.getElem?_eq_none hge, Option.getD_none, List.drop_eq_nil_of_le hge, untilEnd_mark]
      rfl

/-- Without a mark the source is no more than where it stands. -/
theorem Tracks.source_eq {text : String} {s : Scanner TextSource} (h : Tracks text s)
    (hmarked : s.source.marked = none) :
    s.source = ⟨text, TextSource.place text s.cursor.taken, none⟩ := by
  obtain ⟨⟨_, offset, _⟩, cursor, options, depth⟩ := s
  obtain ⟨rfl, hstands⟩ := h
  cases hmarked
  simp only at hstands ⊢
  rw [← hstands.offset]

/-- A search that misses leaves a scanner over a text as it was. -/
theorem Tracks.seek_missed {text : String} {s : Scanner TextSource} (h : Tracks text s)
    (hmarked : s.source.marked = none) {target : Char}
    (htarget : target ∉ untilEnd (text.toList.drop s.cursor.index)) :
    s.seek target = (.ok endMark, s) := by
  obtain ⟨cs, hyields, hstream⟩ := h.stream
  obtain ⟨source, hseek, -⟩ :=
    Scanner.seek_missed (TextSource.markable seekLimit) hyields (hstream ▸ htarget) trivial
  have hafter : Tracks text { s with source := CharSource.unmark source } := by
    have htracks := seek_tracks h target
    rwa [hseek] at htracks
  have hsource : CharSource.unmark source = s.source :=
    (hafter.source_eq rfl).trans (h.source_eq hmarked).symm
  rw [hseek, hsource]

/-- The scanner `t` is `s` with the next character put back, as peeking leaves it, or in any other
way comes to the same by reading it. No mark is set. -/
structure Peeked (text : String) (s t : Scanner TextSource) : Prop where
  tracks : Tracks text s
  tracks' : Tracks text t
  marked : s.source.marked = none
  marked' : t.source.marked = none
  next : s.next = t.next
  position : s.position = t.position

/-- Short of putting back, a request is answered alike. After that either there is no difference any
more, or nothing has changed on either side. -/
theorem perform_peeked {text : String} {s t : Scanner TextSource} (h : Peeked text s t)
    {request : Request} (hrequest : request ≠ .stepBack) :
    (s.perform request).1 = (t.perform request).1 ∧
      ((s.perform request).2 = (t.perform request).2 ∨
        (s.perform request).2 = s ∧ (t.perform request).2 = t) := by
  by_cases hreads : request.reads = true
  · rw [perform_of_next h.next hreads]
    exact ⟨rfl, .inl rfl⟩
  cases request with
  | stepBack => exact absurd rfl hrequest
  | take n =>
    -- no character is asked for, or too many
    by_cases hn : capacity < n
    · simp only [perform, take_of_lt hn]
      exact ⟨rfl, .inr ⟨rfl, rfl⟩⟩
    · obtain rfl : n = 0 := by
        simp only [Request.reads, Bool.and_eq_true, decide_eq_true_eq, not_and, Nat.not_le]
          at hreads
        rcases Nat.eq_zero_or_pos n with hzero | hpos
        · exact hzero
        · exact absurd (hreads hpos) hn
      exact ⟨rfl, .inr ⟨rfl, rfl⟩⟩
  | seek target =>
    have hindex : s.cursor.index = t.cursor.index := congrArg Position.index h.position
    by_cases htarget : target ∈ untilEnd (text.toList.drop s.cursor.index)
    · obtain ⟨cs, hyields, hstream⟩ := h.tracks.stream
      obtain ⟨cs', hyields', hstream'⟩ := h.tracks'.stream
      have hsame : s.seek target = t.seek target := by
        rw [seek_found (TextSource.markable seekLimit) hyields (hstream ▸ htarget),
          seek_found (TextSource.markable seekLimit) hyields' (hstream' ▸ hindex ▸ htarget),
          hstream, hstream', hindex, nextTimes, nextTimes, h.next]
      rw [perform, perform, hsame]
      exact ⟨rfl, .inl rfl⟩
    · simp only [perform, h.tracks.seek_missed h.marked htarget,
        h.tracks'.seek_missed h.marked' (hindex ▸ htarget)]
      exact ⟨rfl, .inr ⟨rfl, rfl⟩⟩
  | next | hasNext | expect | nextSolid | quoted | fieldTo | fieldToAny | value =>
    exact absurd rfl hreads

/-- The two are told apart at most by putting back where the run has not moved the cursor. -/
theorem reports_peeked {text : String} {s t : Scanner TextSource} (h : Peeked text s t)
    {requests : List Request}
    (hback : ∀ before after, requests = before ++ .stepBack :: after →
      (s.run before).2.cursor ≠ s.cursor) : t.reports requests = s.reports requests := by
  induction requests with
  | nil => rfl
  | cons request rest ih =>
    have hrequest : request ≠ .stepBack := by
      rintro rfl
      exact hback [] rest rfl rfl
    obtain ⟨hanswer, hsame | ⟨hs, ht⟩⟩ := perform_peeked h hrequest
    · rw [reports_cons, reports_cons, hanswer, hsame]
    · have hrest : t.reports rest = s.reports rest := by
        apply ih
        rintro before after rfl
        have hmoved := hback (request :: before) after rfl
        rwa [run_cons_snd, hs] at hmoved
      rw [reports_cons, reports_cons, hanswer, hs, ht, h.position, hrest]

/-- Peeking at a character puts it back. -/
theorem peeked_hasNext {text : String} {s s1 : Scanner TextSource} {c : Char} (h : Tracks text s)
    (hmarked : s.source.marked = none) (hn : s.next = (.ok c, s1)) :
    Peeked text s s1.stepBack.2 := by
  obtain ⟨-, htracks, -, hmark⟩ := next_tracks h
  rw [hn] at htracks hmark
  obtain ⟨hnext, hposition⟩ := next_stepBack hn
  refine ⟨h, stepBack_tracks htracks, hmarked, ?_, hn.trans hnext.symm, hposition.symm⟩
  rw [stepBack_snd]
  exact hmark.trans hmarked

/-- Where a character has been put back already, peeking changes nothing. -/
theorem stepBack_of_pending {text : String} {s s1 : Scanner TextSource} {c : Char}
    (h : Tracks text s) (hpending : s.cursor.pending ≠ none) (hn : s.next = (.ok c, s1)) :
    s1.stepBack.2 = s := by
  rw [(next_handed hn).stepBack]
  obtain ⟨source, cursor, options, depth⟩ := s
  obtain ⟨-, hstands⟩ := h
  simp only at hpending hstands
  generalize source.offset = offset at hstands
  cases hstands with
  | read i => exact absurd (Cursor.after_pending _) hpending
  | putBack i =>
    simp only [next, pending_putBack] at hn
    cases hn
    simp only [advance_putBack]

theorem run_replicate_hasNext {s : Scanner TextSource} {c : Char} {s1 : Scanner TextSource}
    (hn : s.next = (.ok c, s1)) (hc : c ≠ endMark) (n : Nat) :
    (s.run (List.replicate (n + 1) .hasNext)).2 = s1.stepBack.2 ∧
      s.reports (List.replicate (n + 1) .hasNext) =
        List.replicate (n + 1) (.ok (.flag true), s.position) := by
  have hpeek : s.perform .hasNext = (.ok (.flag true), s1.stepBack.2) := by
    rw [perform, hasNext_of_next hn, if_neg hc]
    rfl
  obtain ⟨hnext, hposition⟩ := next_stepBack hn
  induction n generalizing s with
  | zero =>
    rw [List.replicate_one, run_cons_snd, reports_cons, hpeek, hposition]
    exact ⟨rfl, rfl⟩
  | succ n ih =>
    have hagain : s1.stepBack.2.perform .hasNext = (.ok (.flag true), s1.stepBack.2) := by
      rw [perform, hasNext_of_next hnext, if_neg hc]
      rfl
    obtain ⟨hafter, hreports⟩ := ih hnext hagain rfl
    rw [List.replicate_succ, run_cons_snd, reports_cons, hpeek, hafter, hreports, hposition]
    exact ⟨rfl, rfl⟩

/-- Where no character has been put back, putting one back shows whether there was a peek: what the
peek put back takes up the place. -/
theorem reports_stepBack_peeked {s s1 : Scanner TextSource} {c : Char}
    (hpending : s.cursor.pending = none) (hn : s.next = (.ok c, s1)) :
    s1.stepBack.2.reports [.stepBack] ≠ s.reports [.stepBack] := by
  have hback : s1.stepBack = (.ok (), s1.stepBack.2) := by rw [(next_handed hn).stepBack]
  have hput : s1.stepBack.2.cursor.pending = some c := (next_handed hn).pending_stepBack hback
  have hwith : s1.stepBack.2.stepBack = (.error (.misused .steppedBackTwice), s1.stepBack.2) := by
    rw [Scanner.stepBack.eq_def s1.stepBack.2, hput]
    rfl
  rw [reports_cons, reports_cons, perform, perform, hwith, Scanner.stepBack.eq_def s, hpending,
    if_neg (by decide)]
  split <;> rintro ⟨⟩

/-- **Peeking is not noticed.** Let a scanner over a text have served any requests. It answers
whether a character is left just as reading would show. If one is left, then however often this is
asked the answer and the position stay the same, and whatever is requested next comes to the same
answers and positions as without asking. This holds of all requests if a character was put back
already, for then nothing has changed at all; otherwise of those in which putting back is only
requested where the cursor has been moved. That much is needed: the character that was peeked at
takes up the only place for one put back. -/
theorem run_hasNext (text : String) (o : Options) (requests : List Request) :
    let s := ((ofText text o).run requests).2
    ∃ c, s.next.1 = .ok c ∧ s.hasNext.1 = .ok (decide (c ≠ endMark)) ∧
      (c ≠ endMark → ∀ n,
        let peeks := List.replicate (n + 1) Request.hasNext
        let t := (s.run peeks).2
        s.reports peeks = List.replicate (n + 1) (.ok (.flag true), s.position) ∧
          t.position = s.position ∧ (s.cursor.pending ≠ none → t = s) ∧
          (s.cursor.pending = none → t.reports [.stepBack] ≠ s.reports [.stepBack]) ∧
          ∀ later, (∀ before after, later = before ++ .stepBack :: after →
            (s.run before).2.cursor ≠ s.cursor) → t.reports later = s.reports later) := by
  intro s
  have htracks : Tracks text s := (tracking text).run requests (ofText_tracks text o)
  have hmarked : s.source.marked = none :=
    (text_resting.run requests (s := ofText text o) ⟨rfl, _, TextSource.yields_ofText text⟩).1
  obtain ⟨hc, -⟩ := next_tracks htracks
  have hn : s.next = (.ok (item text s.cursor.index), s.next.2) := Prod.ext hc rfl
  refine ⟨_, hc, ?_, ?_⟩
  · rw [hasNext_of_next hn]
    split
    · rename_i hend
      rw [hend]
      rfl
    · rename_i hchar
      rw [decide_eq_true hchar]
  · intro hchar n peeks t
    obtain ⟨ht, hreports⟩ := run_replicate_hasNext hn hchar n
    have ht : t = s.next.2.stepBack.2 := ht
    refine ⟨hreports, ?_, ?_, ?_, ?_⟩
    · rw [ht]
      exact (next_stepBack hn).2
    · intro hpending
      rw [ht]
      exact stepBack_of_pending htracks hpending hn
    · intro hpending
      rw [ht]
      exact reports_stepBack_peeked hpending hn
    · intro later hback
      rw [ht]
      exact reports_peeked (peeked_hasNext htracks hmarked hn) hback

/-- A peek between two characters takes up the place for putting back: what could be put back before
cannot be any more. -/
theorem reports_hasNext_stepBack :
    let s := ((ofText "ab" {}).run [.next]).2
    s.next.1 = .ok 'b' ∧ s.hasNext.1 = .ok true ∧
      s.reports [.stepBack] = [(.ok .done, ⟨0, 1, 1⟩)] ∧
      s.hasNext.2.reports [.stepBack] = [(.error (.misused .steppedBackTwice), ⟨1, 1, 2⟩)] ∧
      s.hasNext.2.reports [.stepBack] ≠ s.reports [.stepBack] := by
  intro s
  have hwithout : s.reports [.stepBack] = [(.ok .done, ⟨0, 1, 1⟩)] := by with_unfolding_all rfl
  have hwith : s.hasNext.2.reports [.stepBack] =
      [(.error (.misused .steppedBackTwice), ⟨1, 1, 2⟩)] := by with_unfolding_all rfl
  refine ⟨by with_unfolding_all rfl, by with_unfolding_all rfl, hwithout, hwith, ?_⟩
  rw [hwithout, hwith]
  rintro ⟨⟩

end Scanner

end LaxJson
