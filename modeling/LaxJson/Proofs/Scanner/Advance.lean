import LaxJson.Proofs.Scanner.Calls
import LaxJson.Proofs.Scanner.Footprint

/-!
# LaxJson.Proofs.Scanner.Advance

How the index moves. A character put back takes the index one step down, so that no index lemma
follows from the single steps alone; what never gets less is how much has been taken.

* `extending`: no operation ever gives back what it has taken from the source.
* `index_value`: a value that is read moves the index on.
* `index_le_of_call`: no call starts before the call that makes it.
-/

namespace LaxJson

theorem Cursor.index_le_taken (k : Cursor) : k.index ≤ k.taken := Nat.le_add_right _ _

namespace Scanner

variable {σ : Type} [CharSource σ] {s s' : Scanner σ}

/-- However a run ends, nothing that was taken is given back. -/
def extending : Course σ where
  Runs s _ s' := s.cursor.taken ≤ s'.cursor.taken
  Ready _ := True
  ready _ := trivial
  refl _ := Nat.le_refl _
  fault _ _ _ := Nat.le_refl _
  trans := Nat.le_trans
  next := by
    rintro s -
    rcases hn : s.next with ⟨_ | c, s1⟩
    · rw [(next_error hn).2]
    · exact (Cursor.taken_le _).trans_eq (next_taken hn).symm
  stepBack h := h.taken_stepBack.ge
  nested h := h

theorem index_next {c : Char} (h : s.next = (.ok c, s')) : s'.cursor.index = s.cursor.index + 1 :=
  (next_handed h).taken.symm.trans (next_taken h)

omit [CharSource σ] in
theorem index_stepBack_add_one (h : s.stepBack = (.ok (), s')) :
    s'.cursor.index + 1 = s.cursor.index := by
  obtain ⟨⟨-, hindex⟩, rfl⟩ := stepBack_ok h
  exact Nat.sub_add_cancel (Nat.one_le_iff_ne_zero.mpr hindex)

variable [FiniteSource σ]

theorem index_nextSolid {c : Char} (h : s.nextSolid = (.ok c, s')) :
    s.cursor.index < s'.cursor.index := by
  fun_induction nextSolid s with
  | case1 => cases h
  | case2 s d s1 hn _ =>
    cases h
    exact Nat.lt_of_lt_of_eq (Nat.lt_succ_self _) (index_next hn).symm
  | case3 s d s1 hn _ ih =>
    have := index_next hn
    have := ih h
    omega

theorem index_bareFrom {text : List Char} {t : String} (h : bareFrom text s = (.ok t, s')) :
    s.cursor.index < s'.cursor.index ∨
      (s.cursor.index = s'.cursor.index ∧ t = String.ofList (trimBlanks text.reverse)) := by
  fun_induction bareFrom text s with
  | case1 => cases h
  | case2 => cases h
  | case3 text s c s1 hn hc s2 hb =>
    cases h
    have := index_next hn
    have := index_stepBack_add_one hb
    exact .inr ⟨by omega, rfl⟩
  | case4 text s c s1 hn hc ih =>
    have := index_next hn
    left
    rcases ih h with h' | ⟨h', -⟩ <;> omega

/-- A bare literal that is not empty has moved the index on. -/
theorem index_bare {t : String} (h : s.bare = (.ok t, s')) (ht : t ≠ "") :
    s.cursor.index < s'.cursor.index := by
  rcases index_bareFrom h with h' | ⟨-, rfl⟩
  · exact h'
  · exact absurd rfl ht

theorem index_quoted {quote : Char} {t : String} (h : s.quoted quote = (.ok t, s')) :
    s.cursor.index ≤ s'.cursor.index := by
  have htaken := (extending.logic.quoted (s := s) trivial quote).runs
  rw [h] at htaken
  calc s.cursor.index ≤ s.cursor.taken := s.cursor.index_le_taken
    _ ≤ s'.cursor.taken := htaken
    _ = s'.cursor.index := (quoted_handed h).taken

/-! ## Punctuation -/

theorem index_opening {k : Container} (h : s.opening k = (.ok (), s')) :
    s.cursor.index < s'.cursor.index := by
  unfold opening at h
  split at h
  · cases h
  · rename_i hn
    split at h <;> cases h
    exact index_nextSolid hn

theorem index_closes {k : Container} {closed : Bool} (h : s.closes k = (.ok closed, s')) :
    s.cursor.index ≤ s'.cursor.index := by
  unfold closes at h
  split at h
  · cases h
  rename_i hn
  have hlt := index_nextSolid hn
  split at h
  · cases h
    exact Nat.le_of_lt hlt
  · split at h <;> cases h
    rename_i hb
    have := index_stepBack_add_one hb
    omega

theorem index_separator {k : Container} {closed : Bool} (h : s.separator k = (.ok closed, s')) :
    s.cursor.index < s'.cursor.index := by
  unfold separator at h
  split at h
  · cases h
  rename_i hn
  have hlt := index_nextSolid hn
  split at h
  · exact Nat.lt_of_lt_of_le hlt (index_closes h)
  · split at h <;> cases h
    exact hlt

theorem index_nextKey {key : Option String} (h : s.nextKey = (.ok key, s')) :
    s.cursor.index < s'.cursor.index := by
  unfold nextKey at h
  split at h
  · cases h
  rename_i hn
  have hlt := index_nextSolid hn
  split at h
  · cases h
  split at h
  · cases h
    exact hlt
  split at h
  · split at h <;> cases h
    rename_i hq
    exact Nat.lt_of_lt_of_le hlt (index_quoted hq)
  split at h
  · cases h
  split at h
  · cases h
  rename_i hb
  split at h
  · cases h
  rename_i hbare
  split at h <;> cases h
  rename_i hne
  have := index_stepBack_add_one hb
  have := index_bare hbare hne
  omega

theorem index_colon (h : s.colon = (.ok (), s')) : s.cursor.index < s'.cursor.index := by
  unfold colon at h
  split at h
  · cases h
  · rename_i hn
    split at h <;> cases h
    exact index_nextSolid hn

theorem index_emptySlot {empty : Bool} (h : s.emptySlot = (.ok empty, s')) :
    s.cursor.index ≤ s'.cursor.index := by
  unfold emptySlot at h
  split at h
  · cases h
  rename_i hn
  have hlt := index_nextSolid hn
  split at h
  · cases h
  · split at h <;> cases h
    rename_i hb
    have := index_stepBack_add_one hb
    omega

/-! ## Values -/

/-- A container that is read after its bracket was put back ends past that bracket. -/
theorem index_container {s1 s2 : Scanner σ} {c d : Char} (hn : s.nextSolid = (.ok c, s1))
    (hb : s1.stepBack = (.ok (), s2)) (htaken : s2.cursor.taken ≤ s'.cursor.taken)
    (hs' : Handed d s') : s.cursor.index < s'.cursor.index := by
  have hs1 := nextSolid_handed hn
  have hput : s2.cursor.taken = s1.cursor.taken := by
    rw [hs1.stepBack] at hb
    cases hb
    exact hs1.taken_stepBack
  calc s.cursor.index < s1.cursor.index := index_nextSolid hn
    _ = s2.cursor.taken := (hput.trans hs1.taken).symm
    _ ≤ s'.cursor.taken := htaken
    _ = s'.cursor.index := hs'.taken

/-- A value that is read moves the index on. -/
theorem index_value {v : Value} (h : s.value = (.ok v, s')) :
    s.cursor.index < s'.cursor.index := by
  rw [value_eq] at h
  split at h
  · cases h
  rename_i c s1 hn
  split at h
  · split at h <;> cases h
    rename_i hq
    exact Nat.lt_of_lt_of_le (index_nextSolid hn) (index_quoted hq)
  split at h
  · cases h
  rename_i s2 hb
  have hput := (nextSolid_handed hn).pending_stepBack hb
  split at h
  · rename_i hc
    have htaken := (extending.logic.reading.object s2 (hc ▸ hput)).runs
    rw [h] at htaken
    exact index_container hn hb htaken (object_handed h)
  split at h
  · rename_i hc
    have htaken := (extending.logic.reading.array s2 (hc ▸ hput)).runs
    rw [h] at htaken
    exact index_container hn hb htaken (array_handed h)
  split at h
  · cases h
  rename_i hbare
  split at h <;> cases h
  rename_i hne
  have := index_nextSolid hn
  have := index_stepBack_add_one hb
  have := index_bare hbare hne
  omega

/-! ## Calls -/

namespace Reading

/-- No call starts before the call that makes it. -/
theorem index_le_of_call {r r' : Reading σ} (h : Call r r') :
    r.scanner.cursor.index ≤ r'.scanner.cursor.index := by
  cases h with
  | object hn hb | array hn hb =>
    have := index_nextSolid hn
    have := index_stepBack_add_one hb
    simp only [scanner]
    omega
  | @members s _ _ ho => exact Nat.le_of_lt (index_opening (s := s.enter) ho)
  | @items s _ _ _ ho hc =>
    exact (Nat.le_of_lt (index_opening (s := s.enter) ho)).trans (index_closes hc)
  | member hk hc => exact (Nat.le_of_lt (index_nextKey hk)).trans (Nat.le_of_lt (index_colon hc))
  | moreMembers hk hc hv hs =>
    have := index_nextKey hk
    have := index_colon hc
    have := index_value hv
    have := index_separator hs
    simp only [scanner]
    omega
  | slot he => exact index_emptySlot he
  | moreSlots he hv hs =>
    have := index_emptySlot he
    have := index_value hv
    have := index_separator hs
    simp only [scanner]
    omega
  | moreEmptySlots he hs =>
    exact (index_emptySlot he).trans (Nat.le_of_lt (index_separator hs))

end Reading

end Scanner

end LaxJson
