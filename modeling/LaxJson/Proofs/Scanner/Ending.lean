import LaxJson.Proofs.Grammar.Tokens
import LaxJson.Proofs.Scanner.Tracking
import LaxJson.Proofs.Scanner.Handed

/-!
# LaxJson.Proofs.Scanner.Ending

How a value begins and ends in a text.

* `value_handed`: a value that is no literal ends with the character that closes it (`closer?`), and
  nothing is put back after it.
* `nextSolid_skips`: it begins with the first character that is no blank.
* `value_literal`: after a literal comes the first character that cannot be part of it.
-/

namespace LaxJson

open Grammar

/-- What closes a value that begins with `c`, unless that is a literal. -/
def closer? (c : Char) : Option Char :=
  if c = '"' ∨ c = '\'' then some c
  else if c = Container.object.opening then some Container.object.closing
  else if c = Container.array.opening then some Container.array.closing
  else none

theorem closer?_solid {c d : Char} (h : closer? c = some d) : ' ' < d ∧ d ≠ endMark := by
  unfold closer? at h
  split at h
  · rename_i hquote
    cases h
    rcases hquote with rfl | rfl <;> decide
  · split at h
    · cases h
      decide
    · split at h <;> cases h
      decide

theorem closer?_opening {c d : Char} (h : closer? c = some d) : ' ' < c := by
  unfold closer? at h
  split at h
  · rename_i hquote
    rcases hquote with rfl | rfl <;> decide
  · split at h
    · rename_i hc
      subst hc
      decide
    · split at h
      · rename_i hc
        subst hc
        decide
      · cases h

theorem closer?_eq_none {c : Char} (h : closer? c = none) :
    ¬(c = '"' ∨ c = '\'') ∧ c ≠ Container.object.opening ∧ c ≠ Container.array.opening := by
  unfold closer? at h
  split at h
  · cases h
  rename_i hquote
  split at h
  · cases h
  rename_i hobject
  split at h
  · cases h
  rename_i harray
  exact ⟨hquote, hobject, harray⟩

namespace Scanner

/-! ## The end of a value -/

section

variable {σ : Type} [CharSource σ] [FiniteSource σ] {s s1 s' : Scanner σ} {c d : Char} {v : Value}

/-- A value that is no literal ends with the character that closes it. -/
theorem value_handed (hn : s.nextSolid = (.ok c, s1)) (hd : closer? c = some d)
    (h : s.value = (.ok v, s')) : Handed d s' := by
  rw [value_eq, hn] at h
  unfold closer? at hd
  dsimp only at h
  split at h
  · rename_i hquote
    rw [if_pos hquote] at hd
    cases hd
    split at h <;> cases h
    rename_i hq
    exact quoted_handed hq
  rename_i hquote
  rw [if_neg hquote] at hd
  split at h
  · cases h
  split at h
  · rename_i hobject
    rw [if_pos hobject] at hd
    cases hd
    exact object_handed h
  rename_i hobject
  rw [if_neg hobject] at hd
  split at h
  · rename_i harray
    rw [if_pos harray] at hd
    cases hd
    exact array_handed h
  · rename_i harray
    rw [if_neg harray] at hd
    cases hd

/-- At the end there is no value. -/
theorem value_solid (hn : s.nextSolid = (.ok c, s1)) (h : s.value = (.ok v, s')) :
    c ≠ endMark := by
  rintro rfl
  rw [value_eq, hn] at h
  dsimp only at h
  rw [if_neg (by decide)] at h
  split at h
  · cases h
  rename_i s2 hb
  rw [if_neg (by decide), if_neg (by decide)] at h
  have hnext := (nextSolid_handed hn).next_stepBack hb
  rw [bare, bareFrom_eq, show s2.next = (.ok endMark, s2.next.2) from Prod.ext hnext rfl] at h
  dsimp only at h
  rw [if_pos (by decide)] at h
  split at h
  · cases h
  · rename_i text s3 ht
    split at ht <;> cases ht
    cases h

/-- Blanks before a value do not matter. -/
theorem value_of_blank (hn : s.next = (.ok c, s1)) (hblank : isBlank c = true)
    (hc : c ≠ endMark) : s.value = s1.value := by
  have hskip : s.nextSolid = s1.nextSolid := by
    rw [nextSolid_eq, hn]
    dsimp only
    rw [if_neg (by simp [hc, hblank])]
  rw [value_eq, value_eq s1, hskip]

end

/-! ## Characters of a text -/

theorem drop_of_item {text : String} {i : Nat} (h : item text i ≠ endMark) :
    text.toList.drop i = item text i :: text.toList.drop (i + 1) := by
  rw [item] at h ⊢
  rcases Nat.lt_or_ge i text.toList.length with hlt | hge
  · rw [List.drop_eq_getElem_cons hlt, List.getElem?_eq_getElem hlt, Option.getD_some]
  · rw [List.getElem?_eq_none hge] at h
    exact absurd rfl h

theorem find?_endsBare_drop (text : String) (i : Nat) :
    ((text.toList.drop i).find? endsBare).getD endMark =
      if endsBare (item text i) then item text i
      else ((text.toList.drop (i + 1)).find? endsBare).getD endMark := by
  by_cases hmark : item text i = endMark
  · rw [hmark, if_pos (by decide)]
    rcases Nat.lt_or_ge i text.toList.length with hlt | hge
    · rw [item, List.getElem?_eq_getElem hlt, Option.getD_some] at hmark
      rw [List.drop_eq_getElem_cons hlt, hmark]
      rfl
    · rw [List.drop_eq_nil_of_le hge]
      rfl
  · rw [drop_of_item hmark, List.find?_cons]
    split <;> rename_i h <;> simp [h]

variable {text : String} {s s1 s' : Scanner TextSource} {c d : Char} {v : Value}

/-- With nothing put back, what remains of the text begins at the index. -/
theorem Tracks.remaining (h : Tracks text s) (hpending : s.cursor.pending = none) :
    s.source.remaining = String.ofList (text.toList.drop s.cursor.index) := by
  obtain ⟨source, cursor, options, depth⟩ := s
  obtain ⟨htext, hstands⟩ := h
  simp only at htext hstands
  subst htext
  generalize hoffset : source.offset = offset at hstands
  cases hstands with
  | read i =>
    rw [TextSource.remaining_place hoffset, Cursor.after_index, length_itemsBefore]
  | putBack i =>
    rw [pending_putBack] at hpending
    cases hpending

/-- The first character that is no blank, with what stands before it and after it. -/
theorem nextSolid_skips (h : Tracks text s) (hn : s.nextSolid = (.ok c, s1)) (hc : c ≠ endMark) :
    Tracks text s1 ∧ ' ' < c ∧ ∃ b, Blanks b ∧ s1.cursor.index = s.cursor.index + b.length + 1 ∧
      text.toList.drop s.cursor.index = b ++ c :: text.toList.drop s1.cursor.index := by
  fun_induction nextSolid s with
  | case1 => cases hn
  | case2 s d s2 hnext hsolid =>
    cases hn
    obtain ⟨hd, htracks, hindex, -⟩ := next_tracks h
    rw [hnext] at hd htracks hindex
    cases hd
    refine ⟨htracks, not_blank_iff.mp (hsolid.resolve_left hc), [], .nil, hindex, ?_⟩
    rw [drop_of_item hc, hindex]
    rfl
  | case3 s d s2 hnext hblank ih =>
    obtain ⟨hd, htracks, hindex, -⟩ := next_tracks h
    rw [hnext] at hd htracks hindex
    cases hd
    rw [not_or, Bool.not_eq_false] at hblank
    obtain ⟨htracks1, hsolid, b, hb, hindex1, hdrop⟩ := ih htracks hn
    refine ⟨htracks1, hsolid, item text s.cursor.index :: b, ?_, ?_, ?_⟩
    · have hfirst : Blanks [item text s.cursor.index] :=
        .of_isBlank (List.forall_mem_singleton.mpr hblank.2)
          fun hmem => hblank.1 (List.mem_singleton.mp hmem).symm
      exact List.forall_mem_cons.mpr ⟨hfirst _ List.mem_cons_self, hb⟩
    · rw [hindex1, hindex, List.length_cons]
      omega
    · rw [drop_of_item hblank.1, ← hindex, hdrop]
      rfl

/-- A literal stops before the first character that cannot be part of one. -/
theorem bareFrom_next {before : List Char} {t : String} (h : Tracks text s)
    (hb : bareFrom before s = (.ok t, s')) :
    s'.next.1 = .ok (((text.toList.drop s.cursor.index).find? endsBare).getD endMark) := by
  fun_induction bareFrom before s with
  | case1 => cases hb
  | case2 => cases hb
  | case3 before s d s1 hnext hends s2 hback =>
    cases hb
    obtain ⟨hd, -⟩ := next_tracks h
    rw [hnext] at hd
    cases hd
    rw [(next_handed hnext).next_stepBack hback, find?_endsBare_drop, if_pos hends]
  | case4 before s d s1 hnext hends ih =>
    obtain ⟨hd, htracks, hindex, -⟩ := next_tracks h
    rw [hnext] at hd htracks hindex
    cases hd
    rw [ih htracks hb, find?_endsBare_drop text s.cursor.index, if_neg hends, hindex]

/-- The latest character is the last one that was taken. -/
theorem Tracks.getLast?_taken (h : Tracks text s) (hs : Handed d s) (hd : d ≠ endMark)
    (hle : s.cursor.index ≤ text.toList.length) :
    (text.toList.take s.cursor.index).getLast? = some d := by
  rcases h.stands.shows.2 with ⟨-, hprevious, -⟩ | ⟨hpending, -⟩
  · rw [hs.previous, itemsBefore_eq_take hle] at hprevious
    cases hlast : (text.toList.take s.cursor.index).getLast? with
    | none =>
      rw [hlast] at hprevious
      exact absurd hprevious hd
    | some d' =>
      rw [hlast] at hprevious
      exact congrArg some hprevious.symm
  · rw [hs.pending] at hpending
    cases hpending

/-- After a literal comes the character that stopped it. -/
theorem value_literal (htracks : Tracks text s) (hn : s.nextSolid = (.ok c, s1))
    (hd : closer? c = none) (h : s.value = (.ok v, s')) :
    s'.next.1 = .ok (((c :: text.toList.drop s1.cursor.index).find? endsBare).getD endMark) := by
  obtain ⟨htracks1, -, b, -, hindex, hdrop⟩ := nextSolid_skips htracks hn (value_solid hn h)
  obtain ⟨hquote, hobject, harray⟩ := closer?_eq_none hd
  rw [value_eq, hn] at h
  dsimp only at h
  rw [if_neg hquote] at h
  split at h
  · cases h
  rename_i s2 hback
  have htracks2 := stepBack_tracks htracks1
  rw [hback] at htracks2
  rw [(nextSolid_handed hn).stepBack] at hback
  cases hback
  rw [if_neg hobject, if_neg harray] at h
  split at h
  · cases h
  rename_i t s3 hbare
  split at h <;> cases h
  have hleft : s1.cursor.stepBack.index = s.cursor.index + b.length := by
    simp only [Cursor.stepBack, hindex, Nat.add_sub_cancel]
  rw [bareFrom_next htracks2 hbare, hleft, ← List.drop_drop, hdrop, List.drop_left]

end Scanner

end LaxJson
