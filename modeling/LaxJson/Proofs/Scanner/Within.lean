import LaxJson.Proofs.Scanner.Ahead
import LaxJson.Proofs.Scanner.Course
import LaxJson.Proofs.Scanner.Tracking

/-!
# LaxJson.Proofs.Scanner.Within

A scanner over a text that has not read past the first end mark.

* `Cursor.taken`: how much has been read, which putting a character back does not change.
* `Within`: at most one end mark has been read. Operations that start before the end stay within the
  text and only ever fail with a fault (`within`).
* `Within.position`: so the position is that of a fresh cursor over the characters before the end.
-/

namespace LaxJson

/-- How many items have been read from the source; one of them may have been put back. -/
def Cursor.taken (k : Cursor) : Nat := k.index + k.pending.toList.length

theorem Cursor.taken_le (k : Cursor) : k.taken ≤ k.index + 1 := by
  rw [taken]
  cases k.pending <;> simp

/-- The item after the characters before the first end mark is an end mark. -/
theorem getElem?_untilEnd (l : List Char) : l[(untilEnd l).length]?.getD endMark = endMark := by
  induction l with
  | nil => rfl
  | cons c l ih =>
    by_cases hc : c = endMark
    · rw [hc, untilEnd_mark]
      rfl
    · rw [untilEnd_cons hc]
      exact ih

theorem itemsBefore_untilEnd {text : String} {i : Nat}
    (h : i ≤ (untilEnd text.toList).length + 1) :
    itemsBefore text i = (untilEnd text.toList ++ [endMark]).take i := by
  have hbefore : ∀ j ≤ (untilEnd text.toList).length,
      itemsBefore text j = (untilEnd text.toList).take j := by
    intro j hj
    rw [itemsBefore_eq_take (Nat.le_trans hj (length_untilEnd_le _)), take_untilEnd hj]
  rcases Nat.lt_or_eq_of_le h with hlt | rfl
  · rw [hbefore i (Nat.le_of_lt_succ hlt), List.take_append_of_le_length (Nat.le_of_lt_succ hlt)]
  · rw [itemsBefore_succ, hbefore _ (Nat.le_refl _), item, getElem?_untilEnd, List.take_length,
      List.take_of_length_le (by rw [List.length_append]; exact Nat.le_refl _)]

namespace Scanner

/-- The scanner reads `text`, and has read at most one end mark. -/
structure Within (text : String) (s : Scanner TextSource) : Prop where
  tracks : Tracks text s
  taken : s.cursor.taken ≤ (untilEnd text.toList).length + 1

theorem ofText_within (text : String) (options : Options) : Within text (ofText text options) :=
  ⟨ofText_tracks text options, Nat.zero_le _⟩

theorem Handed.taken {σ : Type} {c : Char} {s : Scanner σ} (h : Handed c s) :
    s.cursor.taken = s.cursor.index := by
  rw [Cursor.taken, h.pending]
  rfl

/-- Putting back what was just read does not change how much has been read. -/
theorem Handed.taken_stepBack {σ : Type} {c : Char} {s : Scanner σ} (h : Handed c s) :
    s.cursor.stepBack.taken = s.cursor.taken := by
  have := h.index
  rw [h.taken, Cursor.taken]
  simp only [Cursor.stepBack, Option.toList_some, List.length_singleton]
  omega

/-- Before the end there is an item left, the first end mark if nothing else. -/
theorem Within.index_le {text : String} {s : Scanner TextSource} (h : Within text s)
    (hopen : s.atEnd = false) : s.cursor.index ≤ (untilEnd text.toList).length := by
  have htaken := h.taken
  rw [Cursor.taken] at htaken
  rcases h.tracks.stands.shows.2 with ⟨hpending, -, hend⟩ | ⟨hpending, -⟩
  · rw [hpending] at htaken
    refine Nat.le_of_lt_succ (Nat.lt_of_le_of_ne htaken ?_)
    intro hindex
    have hend : s.atEnd = _ := hend
    rw [hindex, itemsBefore_succ, item, getElem?_untilEnd, List.getLast?_concat] at hend
    rw [hend] at hopen
    cases hopen
  · rw [hpending] at htaken
    exact Nat.le_of_succ_le_succ htaken

theorem next_within {text : String} {s : Scanner TextSource} (h : Within text s)
    (hopen : s.atEnd = false) :
    (∃ c, s.next.1 = .ok c) ∧ Within text s.next.2 := by
  obtain ⟨hc, htracks, hindex, -⟩ := next_tracks h.tracks
  refine ⟨⟨_, hc⟩, htracks, ?_⟩
  rw [(next_handed (s := s) (Prod.ext hc rfl)).taken, hindex]
  exact Nat.succ_le_succ (h.index_le hopen)

/-- Operations that start before the end of a text stay within it, and fail with faults only. -/
def within (text : String) : Course TextSource where
  Runs s e s' := Within text s → Within text s' ∧ ∀ f, e = some f → ∃ fault, f = s'.faultHere fault
  Ready s := s.atEnd = false
  ready h := h
  refl _ h := ⟨h, nofun⟩
  fault _ fault _ h := ⟨h, fun _ hf => ⟨fault, (Option.some.inj hf).symm⟩⟩
  trans h h' hs := h' (h hs).1
  next := by
    intro s hopen hs
    obtain ⟨⟨c, hc⟩, hwithin⟩ := next_within hs hopen
    refine ⟨hwithin, ?_⟩
    rw [hc]
    rintro _ ⟨⟩
  stepBack := by
    intro c s hhanded hs
    have htracks := stepBack_tracks hs.tracks
    rw [hhanded.stepBack] at htracks
    refine ⟨⟨htracks, ?_⟩, by rintro _ ⟨⟩⟩
    exact hhanded.taken_stepBack.trans_le hs.taken
  nested h hs := by
    obtain ⟨hwithin, hfaults⟩ := h ⟨⟨hs.tracks.source, hs.tracks.stands⟩, hs.taken⟩
    exact ⟨⟨⟨hwithin.tracks.source, hwithin.tracks.stands⟩, hwithin.taken⟩, hfaults⟩

/-- Where a scanner within a text stands is where a fresh cursor comes to over the items read. -/
theorem Within.position {text : String} {s : Scanner TextSource} (h : Within text s) :
    s.position.index ≤ (untilEnd text.toList).length + 1 ∧
      s.position =
        (Cursor.after ((untilEnd text.toList ++ [endMark]).take s.position.index)).position := by
  have hle : s.position.index ≤ (untilEnd text.toList).length + 1 :=
    Nat.le_trans (Nat.le_add_right _ _) h.taken
  refine ⟨hle, ?_⟩
  have hlines : s.cursor.lines = Lines.after (itemsBefore text s.position.index) :=
    h.tracks.stands.shows.1
  rw [← itemsBefore_untilEnd hle, Cursor.position, Cursor.after_index, Cursor.after_lines,
    length_itemsBefore, ← hlines]
  rfl

end Scanner

end LaxJson
