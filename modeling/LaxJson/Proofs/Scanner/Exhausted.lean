import LaxJson.Proofs.Scanner.Footprint
import LaxJson.Proofs.Scanner.Peeking

/-!
# LaxJson.Proofs.Scanner.Exhausted

What a scanner over a text hands out after its end. The end of the text and a NUL character in it
are the same end mark, but only the end of the text keeps on coming.

* `Absorbed`: no request leads away from the end.
* `beyond`: a scanner that has read up to where only end marks follow stays there. Putting back
  takes it to the last end mark at most, and a search finds nothing.
* `run_absorbed_iff`: so the end is absorbing exactly if no character but NUL is left in the text.
-/

namespace LaxJson
namespace Scanner

/-- Whatever is requested, the end mark comes next and brings the scanner to the end. In between it
is at the end, or has the end mark put back. -/
structure Absorbed {σ : Type} [CharSource σ] [FiniteSource σ] (s : Scanner σ) : Prop where
  next : ∀ later, (s.run later).2.next.1 = .ok endMark
  atEnd : ∀ later, (s.run later).2.next.2.atEnd = true
  between : ∀ later,
    (s.run later).2.atEnd = true ∨ (s.run later).2.cursor.pending = some endMark

variable {text : String} {s : Scanner TextSource}

/-! ## Where the end has been read -/

/-- At the end, the item read last is an end mark. -/
theorem Tracks.atEnd_iff (h : Tracks text s) :
    s.atEnd = true ↔
      s.cursor.pending = none ∧ ∃ i, s.cursor.index = i + 1 ∧ item text i = endMark := by
  have hlast : ∀ i, (itemsBefore text (i + 1)).getLast? = some (item text i) := by
    intro i
    rw [itemsBefore_succ, List.getLast?_concat]
  obtain ⟨-, ⟨hpending, -, hend⟩ | ⟨hpending, -, hend⟩⟩ := h.stands.shows
  · have hend : s.atEnd = _ := hend
    rw [hend, decide_eq_true_iff, hpending]
    cases s.cursor.index with
    | zero =>
      constructor
      · rintro ⟨⟩
      · rintro ⟨-, i, ⟨⟩, -⟩
    | succ i =>
      rw [hlast, Option.some.injEq]
      constructor
      · intro hmark
        exact ⟨rfl, i, rfl, hmark⟩
      · rintro ⟨-, j, hj, hmark⟩
        obtain rfl := Nat.succ.inj hj
        exact hmark
  · have hend : s.atEnd = _ := hend
    rw [hend, hpending]
    constructor
    · rintro ⟨⟩
    · rintro ⟨⟨⟩, -⟩

/-- Only end marks come from the item `n` on. -/
def OnlyMarks (text : String) (n : Nat) : Prop := ∀ i, n ≤ i → item text i = endMark

theorem onlyMarks_iff {n : Nat} :
    OnlyMarks text n ↔ ∀ c ∈ text.toList.drop n, c = endMark := by
  constructor
  · intro h c hc
    obtain ⟨k, hk, rfl⟩ := List.mem_iff_getElem.mp hc
    have hmark := h (n + k) (Nat.le_add_right n k)
    rw [List.length_drop] at hk
    rw [item, List.getElem?_eq_getElem (by omega), Option.getD_some] at hmark
    rwa [List.getElem_drop]
  · intro h i hi
    rw [item]
    cases hc : text.toList[i]? with
    | none => rfl
    | some c =>
      refine h c (List.mem_iff_getElem?.mpr ⟨i - n, ?_⟩)
      rw [List.getElem?_drop, Nat.add_sub_cancel' hi, hc]

/-- A text without a NUL character has an end mark at its end only. -/
theorem onlyMarks_of_item {n : Nat} (h : endMark ∉ text.toList) (hn : item text n = endMark) :
    OnlyMarks text n := by
  have hle : text.toList.length ≤ n := by
    refine Nat.le_of_not_lt fun hlt => h ?_
    rw [item, List.getElem?_eq_getElem hlt, Option.getD_some] at hn
    exact List.mem_of_getElem hn
  rw [onlyMarks_iff, List.drop_eq_nil_of_le hle]
  rintro _ ⟨⟩

/-! ## Beyond the end -/

/-- The item `n` has been read, and no mark is set. -/
structure Beyond (text : String) (n : Nat) (s : Scanner TextSource) : Prop where
  tracks : Tracks text s
  marked : s.source.marked = none
  taken : n < s.cursor.taken

variable {n : Nat}

theorem Beyond.le_index (h : Beyond text n s) : n ≤ s.cursor.index :=
  Nat.le_of_lt_succ (Nat.lt_of_lt_of_le h.taken s.cursor.taken_le)

theorem next_beyond (h : Beyond text n s) : Beyond text n s.next.2 := by
  obtain ⟨hc, htracks, hindex, hmark⟩ := next_tracks h.tracks
  refine ⟨htracks, hmark.trans h.marked, ?_⟩
  rw [next_taken (Prod.ext hc rfl)]
  exact Nat.lt_succ_of_le h.le_index

theorem stepBack_beyond (h : Beyond text n s) : Beyond text n s.stepBack.2 := by
  refine ⟨stepBack_tracks h.tracks, ?_, ?_⟩
  · rw [stepBack_snd]
    exact h.marked
  · have htaken := h.taken
    rcases hb : s.stepBack with ⟨e | _, s'⟩
    · rwa [(stepBack_error hb).2]
    · obtain ⟨⟨hpending, hindex⟩, rfl⟩ := stepBack_ok hb
      simp only [Cursor.taken, Cursor.stepBack, hpending, Option.toList_none, Option.toList_some,
        List.length_nil, List.length_singleton] at htaken ⊢
      omega

/-- Where only end marks follow there is nothing to be found. -/
theorem seek_beyond (hmarks : OnlyMarks text n) (h : Beyond text n s) (target : Char) :
    s.seek target = (.ok endMark, s) := by
  have hnothing : untilEnd (text.toList.drop s.cursor.index) = [] := by
    have hall := onlyMarks_iff.mp fun i hi => hmarks i (Nat.le_trans h.le_index hi)
    cases hrest : text.toList.drop s.cursor.index with
    | nil => rfl
    | cons c rest =>
      rw [hall c (hrest ▸ List.mem_cons_self), untilEnd_mark]
  refine h.tracks.seek_missed h.marked ?_
  rw [hnothing]
  exact List.not_mem_nil

/-- The scanner does not leave the end marks. -/
theorem beyond (hmarks : OnlyMarks text n) : Invariant (Beyond text n) where
  atDepth _ h := ⟨⟨h.tracks.source, h.tracks.stands⟩, h.marked, h.taken⟩
  next := next_beyond
  stepBack := stepBack_beyond
  seek h target := by rwa [seek_beyond hmarks h]

theorem Beyond.absorbed (hmarks : OnlyMarks text n) (h : Beyond text n s) : Absorbed s := by
  have hnext : ∀ later, (s.run later).2.next.1 = .ok endMark := by
    intro later
    have hlater := (beyond hmarks).run later h
    rw [(next_tracks hlater.tracks).1, hmarks _ hlater.le_index]
  refine ⟨hnext, fun later => ?_, fun later => ?_⟩
  · rw [(next_handed (Prod.ext (hnext later) rfl)).atEnd]
    rfl
  · have hlater := (beyond hmarks).run later h
    obtain ⟨-, ⟨hpending, -⟩ | ⟨hpending, -⟩⟩ := hlater.tracks.stands.shows
    · left
      have htaken := hlater.taken
      rw [Cursor.taken, hpending] at htaken
      obtain ⟨i, hi⟩ := Nat.exists_eq_succ_of_ne_zero (Nat.ne_zero_of_lt htaken)
      exact hlater.tracks.atEnd_iff.mpr
        ⟨hpending, i, hi, hmarks i (Nat.le_of_lt_succ (hi ▸ htaken))⟩
    · right
      rw [hpending, hmarks _ hlater.le_index]

/-! ## After any requests -/

/-- Reading on hands out one item after the other, end marks or not. -/
theorem Tracks.nextTimes (h : Tracks text s) (n : Nat) :
    (s.nextTimes n).next.1 = .ok (item text (s.cursor.index + n)) := by
  induction n generalizing s with
  | zero => exact (next_tracks h).1
  | succ n ih =>
    obtain ⟨-, htracks, hindex, -⟩ := next_tracks h
    rw [Scanner.nextTimes, ih htracks, hindex, Nat.add_right_comm, Nat.add_assoc]

/-- **The end is absorbing exactly if nothing but NUL characters is left.** Let a scanner over a
text be at the end after any requests. Reading on, it hands out the items of the text from its index
on. So no request leads away from the end if the text has no NUL character, or none but these from
the index on; and if it has others there, reading comes to them. -/
theorem run_absorbed_iff (text : String) (o : Options) (requests : List Request) :
    let s := ((ofText text o).run requests).2
    s.atEnd = true →
      (∀ n, (s.run (List.replicate n .next)).2.next.1 = .ok (item text (s.position.index + n))) ∧
        (Absorbed s ↔ ∀ c ∈ text.toList.drop s.position.index, c = endMark) ∧
        (endMark ∉ text.toList → Absorbed s) := by
  intro s hend
  have htracks : Tracks text s := (tracking text).run requests (ofText_tracks text o)
  have hmarked : s.source.marked = none :=
    (text_resting.run requests (s := ofText text o) ⟨rfl, _, TextSource.yields_ofText text⟩).1
  obtain ⟨hpending, i, hindex, hmark⟩ := htracks.atEnd_iff.mp hend
  have hreads : ∀ n,
      (s.run (List.replicate n .next)).2.next.1 = .ok (item text (s.position.index + n)) := by
    intro n
    rw [run_replicate_next]
    exact htracks.nextTimes n
  have hbeyond : Beyond text i s := by
    refine ⟨htracks, hmarked, ?_⟩
    rw [Cursor.taken, hpending, hindex]
    exact Nat.lt_succ_self i
  refine ⟨hreads, ⟨fun h => onlyMarks_iff.mp fun j hj => ?_, fun h => ?_⟩, fun h => ?_⟩
  · have hnext := h.next (List.replicate (j - s.position.index) .next)
    rw [hreads, Nat.add_sub_cancel' hj] at hnext
    exact Except.ok.inj hnext
  · refine hbeyond.absorbed fun j hj => ?_
    -- the end mark read last is the item `i`; the index is behind it
    rcases Nat.eq_or_lt_of_le hj with rfl | hlt
    · exact hmark
    · exact onlyMarks_iff.mpr h j (hindex.le.trans hlt)
  · exact hbeyond.absorbed (onlyMarks_of_item h hmark)

/-- After a NUL character only NUL characters are left in the one text, another one in the other. -/
theorem run_absorbed_iff_nul :
    (let s := ((ofText "a\x00\x00" {}).run [.next, .next]).2;
      s.atEnd = true ∧ s.position.index = 2 ∧ Absorbed s) ∧
      (let s := ((ofText "\x00b\x00" {}).run [.next]).2;
        s.atEnd = true ∧ s.position.index = 1 ∧ ¬ Absorbed s) := by
  constructor
  · intro s
    have hend : s.atEnd = true := by with_unfolding_all rfl
    have hindex : s.position.index = 2 := by with_unfolding_all rfl
    have hrest : "a\x00\x00".toList.drop 2 = [endMark] := by decide +kernel
    refine ⟨hend, hindex, (run_absorbed_iff "a\x00\x00" {} [.next, .next] hend).2.1.mpr ?_⟩
    rw [hindex, hrest]
    exact List.forall_mem_singleton.mpr rfl
  · intro s
    have hend : s.atEnd = true := by with_unfolding_all rfl
    have hindex : s.position.index = 1 := by with_unfolding_all rfl
    refine ⟨hend, hindex, fun h => ?_⟩
    have hall := (run_absorbed_iff "\x00b\x00" {} [.next] hend).2.1.mp h
    rw [hindex] at hall
    exact absurd (hall 'b' (by decide +kernel)) (by decide)

/-- A character comes after the end: it was the end of the scanner, but not of the text. -/
theorem next_after_nul :
    let s := ((ofText "\x00a" {}).run [.next]).2
    (ofText "\x00a" {}).next.1 = .ok endMark ∧ s.atEnd = true ∧ s.next.1 = .ok 'a' ∧
      s.next.2.atEnd = false ∧ ¬ Absorbed s := by
  intro s
  have hnext : s.next.1 = .ok 'a' := by with_unfolding_all rfl
  refine ⟨by with_unfolding_all rfl, by with_unfolding_all rfl, hnext,
    by with_unfolding_all rfl, fun h => ?_⟩
  have hmark : s.next.1 = .ok endMark := h.next []
  rw [hnext] at hmark
  cases hmark

end Scanner

end LaxJson
