import LaxJson.Document
import LaxJson.Scanner.Seek

/-!
# LaxJson.Proofs.Scanner.Handed

What a scanner is like after an operation that succeeded. `Handed` says that it has just handed out
a character, and `Scanner.atEnd` is false as long as that was not the end mark.

* `seekFrom_rule`: how to follow a search. The target that it finds has just been handed out, so that
  putting it back succeeds.
* `members_handed`, `items_handed`, `object_handed`, `array_handed`: the last character that a
  container takes is its closing bracket; nothing is put back after it.
* `value_open`: after a value the end has not been read.
-/

namespace LaxJson

theorem Container.opening_solid (k : Container) : isBlank k.opening = false := by
  cases k <;> decide

theorem Container.closing_ne_endMark (k : Container) : k.closing ≠ endMark := by
  cases k <;> decide

namespace Scanner

/-- The scanner has just handed out `c`. -/
structure Handed {σ : Type} (c : Char) (s : Scanner σ) : Prop where
  pending : s.cursor.pending = none
  index : s.cursor.index ≠ 0
  previous : s.cursor.previous = c
  atEnd : s.atEnd = decide (c = endMark)

theorem Handed.open {σ : Type} {c : Char} {s : Scanner σ} (h : Handed c s) (hc : c ≠ endMark) :
    s.atEnd = false := by
  rw [h.atEnd, decide_eq_false hc]

/-- Right after a character was read it can be put back. -/
theorem Handed.stepBack {σ : Type} {c : Char} {s : Scanner σ} (h : Handed c s) :
    s.stepBack = (.ok (), { s with cursor := s.cursor.stepBack }) :=
  stepBack_of_read h.pending h.index

/-- What was put back is to be read again, so that this is not the end. -/
theorem stepBack_open {σ : Type} {s s' : Scanner σ} (h : s.stepBack = (.ok (), s')) :
    s'.atEnd = false := by
  rw [(stepBack_ok h).2]
  rfl

/-- What was put back is pending. -/
theorem Handed.pending_stepBack {σ : Type} {c : Char} {s s' : Scanner σ} (h : Handed c s)
    (hb : s.stepBack = (.ok (), s')) : s'.cursor.pending = some c := by
  rw [h.stepBack] at hb
  cases hb
  exact congrArg some h.previous

theorem open_of_pending {σ : Type} {s : Scanner σ} {c : Char} (h : s.cursor.pending = some c) :
    s.atEnd = false := by
  rw [atEnd, Cursor.atEnd, h]
  exact Bool.and_false _

theorem quote_ne_endMark {c : Char} (h : c = '"' ∨ c = '\'') : c ≠ endMark := by
  rcases h with rfl | rfl <;> decide

variable {σ : Type} [CharSource σ]

/-! ## Characters -/

theorem next_handed {s s' : Scanner σ} {c : Char} (h : s.next = (.ok c, s')) : Handed c s' := by
  rw [next_ok h]
  exact ⟨rfl, Nat.succ_ne_zero _, rfl, Bool.and_true _⟩

theorem takeFrom_open {text : List Char} {n : Nat} {s s' : Scanner σ} {t : String}
    (hs : s.atEnd = false) (h : s.takeFrom text n = (.ok t, s')) : s'.atEnd = false := by
  induction n generalizing text s with
  | zero =>
    cases h
    exact hs
  | succ n ih =>
    simp only [takeFrom] at h
    split at h
    · cases h
    · split at h
      · cases h
      · rename_i hopen
        exact ih (Bool.eq_false_iff.mpr hopen) h

theorem escape_open {s s' : Scanner σ} {x : Escaped} (h : s.escape = (.ok x, s')) :
    s'.atEnd = false := by
  unfold escape at h
  split at h
  · cases h
  rename_i c s1 hn
  split at h
  · rename_i hu
    have hopen : s1.atEnd = false := (next_handed hn).open (by rw [hu]; decide)
    split at h
    · cases h
    · rename_i ht
      rw [take_of_le (by decide)] at ht
      split at h <;> cases h
      exact takeFrom_open hopen ht
  · split at h
    · rename_i d hd
      cases h
      refine (next_handed hn).open ?_
      rintro rfl
      cases hd
    · cases h

/-- What was put back is what comes next. -/
theorem Handed.next_stepBack {c : Char} {s s' : Scanner σ} (h : Handed c s)
    (hb : s.stepBack = (.ok (), s')) : s'.next.1 = .ok c := by
  rw [h.stepBack] at hb
  cases hb
  simp only [next, Cursor.stepBack, h.previous]

variable [FiniteSource σ]

theorem nextSolid_handed {s s' : Scanner σ} {c : Char} (h : s.nextSolid = (.ok c, s')) :
    Handed c s' := by
  fun_induction nextSolid s with
  | case1 => cases h
  | case2 s d s1 hn _ =>
    cases h
    exact next_handed hn
  | case3 s d s1 hn _ ih => exact ih h

/-- What is pending is what comes next, if it is no blank. -/
theorem nextSolid_pending {s s' : Scanner σ} {c d : Char} (h : s.cursor.pending = some d)
    (hd : isBlank d = false) (hn : s.nextSolid = (.ok c, s')) : c = d := by
  rw [nextSolid_eq, next_of_pending h] at hn
  simp only [hd, or_true, if_true] at hn
  cases hn
  rfl

/-! ## Searching -/

/-- What holds while a search goes on leads to what each of its ways out comes to: a read that fails,
the end of the input with a reset that fails or succeeds, and the target. -/
theorem seekFrom_rule {P : Scanner σ → Prop} {Q : Except Failure Char × Scanner σ → Prop}
    {target : Char} {origin : Cursor} (hnext : ∀ s, P s → P s.next.2)
    (hfailed : ∀ s e, P s → Q (.error (.source e), s))
    (hlost : ∀ s e source, P s → CharSource.reset s.source = (.error e, source) →
      Q (.error (.source e), { s with source := source }))
    (hended : ∀ s source, P s → CharSource.reset s.source = (.ok (), source) →
      Q (.ok endMark, { s with source := CharSource.unmark source, cursor := origin }))
    (hfound : ∀ s, P s → Handed target s →
      Q (.ok target, { s with source := CharSource.unmark s.source, cursor := s.cursor.stepBack }))
    {s : Scanner σ} (h : P s) : Q (seekFrom target origin s) := by
  fun_induction seekFrom target origin s with
  | case1 s e s1 hn =>
    have hs1 := hnext s h
    rw [hn] at hs1
    obtain ⟨⟨cause, rfl⟩, -⟩ := next_error hn
    exact hfailed s1 cause hs1
  | case2 s s1 e source hr hn =>
    have hs1 := hnext s h
    rw [hn] at hs1
    exact hlost s1 e source hs1 hr
  | case3 s s1 source hr hn =>
    have hs1 := hnext s h
    rw [hn] at hs1
    exact hended s1 source hs1 hr
  | case4 s s1 e s2 hb hn hc =>
    rw [stepBack_frame s1, (next_handed hn).stepBack] at hb
    cases hb
  | case5 s s1 s2 hb hn hc =>
    have hs1 := hnext s h
    rw [hn] at hs1
    rw [stepBack_frame s1, (next_handed hn).stepBack] at hb
    cases hb
    exact hfound s1 hs1 (next_handed hn)
  | case6 s c s1 hn hc hne ih =>
    have hs1 := hnext s h
    rw [hn] at hs1
    exact ih hs1

/-! ## Strings and literals -/

theorem quoted_handed {quote : Char} {s s' : Scanner σ} {t : String}
    (h : s.quoted quote = (.ok t, s')) : Handed quote s' := by
  unfold quoted at h
  generalize Utf16.Builder.empty = built at h
  fun_induction quotedFrom quote built s with
  | case1 => cases h
  | case2 => cases h
  | case3 => cases h
  | case4 b s s1 x s2 he hn _ ih => exact ih h
  | case5 b s s1 hn =>
    cases h
    exact next_handed hn
  | case6 b s c s1 hn _ _ _ ih => exact ih h

theorem bare_open {s s' : Scanner σ} {t : String} (h : s.bare = (.ok t, s')) :
    s'.atEnd = false := by
  unfold bare at h
  generalize ([] : List Char) = text at h
  fun_induction bareFrom text s with
  | case1 => cases h
  | case2 => cases h
  | case3 text s c s1 hn hc s2 hb =>
    cases h
    exact stepBack_open hb
  | case4 text s c s1 hn hc ih => exact ih h

/-! ## Punctuation -/

theorem opening_open {k : Container} {s s' : Scanner σ} (h : s.opening k = (.ok (), s')) :
    s'.atEnd = false := by
  unfold opening at h
  split at h
  · cases h
  · rename_i hn
    split at h <;> cases h
    rename_i hc
    exact (nextSolid_handed hn).open (by rw [hc]; cases k <;> decide)

theorem closes_handed {k : Container} {s s' : Scanner σ} {closed : Bool}
    (h : s.closes k = (.ok closed, s')) :
    s'.atEnd = false ∧ (closed = true → Handed k.closing s') := by
  unfold closes at h
  split at h
  · cases h
  rename_i c s1 hn
  split at h
  · rename_i hc
    have hhanded : Handed k.closing s1 := hc ▸ nextSolid_handed hn
    cases h
    exact ⟨hhanded.open k.closing_ne_endMark, fun _ => hhanded⟩
  · split at h <;> cases h
    rename_i hb
    exact ⟨stepBack_open hb, by rintro ⟨⟩⟩

theorem separator_handed {k : Container} {s s' : Scanner σ} {closed : Bool}
    (h : s.separator k = (.ok closed, s')) :
    s'.atEnd = false ∧ (closed = true → Handed k.closing s') := by
  unfold separator at h
  split at h
  · cases h
  rename_i c s1 hn
  split at h
  · exact closes_handed h
  split at h
  · rename_i hc
    have hhanded : Handed k.closing s1 := hc ▸ nextSolid_handed hn
    cases h
    exact ⟨hhanded.open k.closing_ne_endMark, fun _ => hhanded⟩
  · cases h

theorem nextKey_handed {s s' : Scanner σ} {key : Option String} (h : s.nextKey = (.ok key, s')) :
    s'.atEnd = false ∧ (key = none → Handed Container.object.closing s') := by
  unfold nextKey at h
  split at h
  · cases h
  rename_i c s1 hn
  split at h
  · cases h
  rename_i hmark
  split at h
  · rename_i hc
    cases h
    exact ⟨(nextSolid_handed hn).open hmark, fun _ => hc ▸ nextSolid_handed hn⟩
  split at h
  · rename_i hquote
    split at h <;> cases h
    rename_i hq
    exact ⟨(quoted_handed hq).open hmark, by rintro ⟨⟩⟩
  split at h
  · cases h
  split at h
  · cases h
  split at h
  · cases h
  rename_i hb
  split at h <;> cases h
  exact ⟨bare_open hb, by rintro ⟨⟩⟩

theorem colon_open {s s' : Scanner σ} (h : s.colon = (.ok (), s')) : s'.atEnd = false := by
  unfold colon at h
  split at h
  · cases h
  · rename_i hn
    split at h <;> cases h
    rename_i hc
    exact (nextSolid_handed hn).open (by rw [hc]; decide)

theorem emptySlot_open {s s' : Scanner σ} {empty : Bool} (h : s.emptySlot = (.ok empty, s')) :
    s'.atEnd = false := by
  unfold emptySlot at h
  split at h
  · cases h
  · split at h
    · cases h
    · split at h <;> cases h
      rename_i hb
      exact stepBack_open hb

/-! ## Values -/

theorem members_handed {ms ms' : Members Value} {s s' : Scanner σ}
    (h : members ms s = (.ok ms', s')) : Handed Container.object.closing s' := by
  induction hn : s.unread using Nat.strongRecOn generalizing ms s with
  | ind n ih =>
    subst hn
    rw [members_eq] at h
    rcases hk : s.nextKey with ⟨_ | _ | key, s1⟩ <;> simp only [hk] at h
    · cases h
    · cases h
      exact (nextKey_handed hk).2 rfl
    rcases hc : s1.colon with ⟨_ | _, s2⟩ <;> simp only [hc] at h
    · cases h
    split at h
    · cases h
    rcases hv : s2.value with ⟨_ | v, s3⟩ <;> simp only [hv] at h
    · cases h
    rcases hs : s3.separator .object with ⟨_ | _ | _, s4⟩ <;> simp only [hs] at h
    · cases h
    · have := unread_nextKey hk
      have := unread_colon hc
      have := unread_value hv
      have := unread_separator hs
      exact ih s4.unread (by omega) h rfl
    · cases h
      exact (separator_handed hs).2 rfl

theorem items_handed {before vs : List Value} {s s' : Scanner σ}
    (h : items before s = (.ok vs, s')) : Handed Container.array.closing s' := by
  induction hn : s.unread using Nat.strongRecOn generalizing before s with
  | ind n ih =>
    subst hn
    rw [items_eq] at h
    rcases he : s.emptySlot with ⟨_ | _ | _, s1⟩ <;> simp only [he] at h
    · cases h
    · rcases hv : s1.value with ⟨_ | v, s2⟩ <;> simp only [hv] at h
      · cases h
      rcases hs : s2.separator .array with ⟨_ | _ | _, s3⟩ <;> simp only [hs] at h
      · cases h
      · have := unread_emptySlot he
        have := unread_value hv
        have := unread_separator hs
        exact ih s3.unread (by omega) h rfl
      · cases h
        exact (separator_handed hs).2 rfl
    · rcases hs : s1.separator .array with ⟨_ | _ | _, s2⟩ <;> simp only [hs] at h
      · cases h
      · have := unread_emptySlot he
        have := unread_separator hs
        exact ih s2.unread (by omega) h rfl
      · cases h
        exact (separator_handed hs).2 rfl

theorem object_handed {s s' : Scanner σ} {v : Value} (h : s.object = (.ok v, s')) :
    Handed Container.object.closing s' := by
  rw [object_eq] at h
  split at h
  · cases h
  split at h
  · cases h
  split at h <;> cases h
  rename_i hm
  have hhanded := members_handed hm
  exact ⟨hhanded.pending, hhanded.index, hhanded.previous, hhanded.atEnd⟩

theorem array_handed {s s' : Scanner σ} {v : Value} (h : s.array = (.ok v, s')) :
    Handed Container.array.closing s' := by
  rw [array_eq] at h
  split at h
  · cases h
  split at h
  · cases h
  split at h
  · cases h
  · cases h
    rename_i hc
    have hhanded := (closes_handed hc).2 rfl
    exact ⟨hhanded.pending, hhanded.index, hhanded.previous, hhanded.atEnd⟩
  · split at h <;> cases h
    rename_i hi
    have hhanded := items_handed hi
    exact ⟨hhanded.pending, hhanded.index, hhanded.previous, hhanded.atEnd⟩

theorem value_open {s s' : Scanner σ} {v : Value} (h : s.value = (.ok v, s')) :
    s'.atEnd = false := by
  rw [value_eq] at h
  split at h
  · cases h
  split at h
  · rename_i hquote
    split at h <;> cases h
    rename_i hq
    exact (quoted_handed hq).open (quote_ne_endMark hquote)
  split at h
  · cases h
  split at h
  · exact (object_handed h).open (Container.closing_ne_endMark _)
  split at h
  · exact (array_handed h).open (Container.closing_ne_endMark _)
  split at h
  · cases h
  rename_i hb
  split at h <;> cases h
  exact bare_open hb

end Scanner

end LaxJson
