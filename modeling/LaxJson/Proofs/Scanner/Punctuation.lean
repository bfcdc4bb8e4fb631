import LaxJson.Proofs.Grammar.Tokens
import LaxJson.Proofs.Scanner.Handed
import LaxJson.Proofs.Scanner.Strings
import LaxJson.Scanner.Punctuation

/-!
# LaxJson.Proofs.Scanner.Punctuation

The pieces of an object or array by what is left to read. For each piece a `_sound` lemma says what
must have been there if it was read, and `_complete` lemmas say that what is there is read.
-/

namespace LaxJson

namespace Container

theorem opening_ne_endMark (k : Container) : k.opening ≠ endMark := by
  cases k <;> decide

theorem separator_ne_endMark {k : Container} {c : Char} (h : c ∈ k.separators) : c ≠ endMark := by
  rintro rfl
  cases k <;> simp [separators, endMark] at h

theorem separator_ne_closing {k : Container} {c : Char} (h : c ∈ k.separators) : c ≠ k.closing := by
  rintro rfl
  cases k <;> simp [separators, closing] at h

end Container

namespace Scanner

open Grammar

variable {o : Options} {d : Nat} {r tail : List Char} {s s' : Scanner CharsSource} {k : Container}

theorem At.before_of_solid (h : At o d r s) (hr : solid r = r) : Before o d r s := by
  have hbefore := h.before
  rwa [hr] at hbefore

/-! ## Brackets -/

theorem opening_sound (h : Before o d r s) (ho : s.opening k = (.ok (), s')) :
    ∃ r', r = k.opening :: r' ∧ At o d r' s' := by
  unfold opening at ho
  split at ho
  · cases ho
  · rename_i c s1 hn
    obtain ⟨hc, hread⟩ := nextSolid_read h hn
    split at ho
    · rename_i hk
      cases ho
      obtain ⟨r', rfl⟩ := cons_of_headD hc (hk ▸ Container.opening_ne_endMark k)
      exact ⟨r', by rw [hk], hread.at⟩
    · cases ho

theorem opening_complete (h : Before o d (k.opening :: r) s) :
    ∃ s1, s.opening k = (.ok (), s1) ∧ At o d r s1 := by
  obtain ⟨s1, (hn : s.nextSolid = (.ok k.opening, s1)), hread⟩ := nextSolid_before h
  refine ⟨s1, ?_, hread.at⟩
  simp only [opening, hn, if_true]

theorem closes_sound (h : Before o d r s) {b : Bool} (hb : s.closes k = (.ok b, s')) :
    b = true ∧ (∃ r', r = k.closing :: r' ∧ At o d r' s') ∨
      b = false ∧ r.headD endMark ≠ k.closing ∧ Before o d r s' := by
  unfold closes at hb
  split at hb
  · cases hb
  · rename_i c s1 hn
    obtain ⟨hc, hread⟩ := nextSolid_read h hn
    split at hb
    · rename_i hk
      cases hb
      obtain ⟨r', rfl⟩ := cons_of_headD hc (hk ▸ Container.closing_ne_endMark k)
      exact .inl ⟨rfl, r', by rw [hk], hread.at⟩
    · rename_i hk
      obtain ⟨s2, hs2, hat⟩ := stepBack_at hread
      rw [hs2] at hb
      cases hb
      exact .inr ⟨rfl, hc ▸ hk, hat.before_of_solid h.solid_eq⟩

theorem closes_complete (h : Before o d (k.closing :: r) s) :
    ∃ s1, s.closes k = (.ok true, s1) ∧ At o d r s1 := by
  obtain ⟨s1, (hn : s.nextSolid = (.ok k.closing, s1)), hread⟩ := nextSolid_before h
  refine ⟨s1, ?_, hread.at⟩
  simp only [closes, hn, if_true]

theorem closes_complete_false (h : Before o d r s) (hr : r.headD endMark ≠ k.closing) :
    ∃ s1, s.closes k = (.ok false, s1) ∧ Before o d r s1 := by
  obtain ⟨s1, hn, hread⟩ := nextSolid_before h
  obtain ⟨s2, hs2, hat⟩ := stepBack_at hread
  refine ⟨s2, ?_, hat.before_of_solid h.solid_eq⟩
  simp only [closes, hn, if_neg hr, hs2]

/-! ## Separators -/

/-- After a member or an item: the closing bracket, or a separator with the bracket after it, or a
separator with something else after it. -/
theorem separator_sound (h : Before o d r s) {b : Bool} (hb : s.separator k = (.ok b, s')) :
    (b = true ∧ ∃ tail, r = k.closing :: tail ∧ At o d tail s') ∨
      ∃ c r', r = c :: r' ∧ c ∈ k.separators ∧
        (b = true ∧ (∃ tail, solid r' = k.closing :: tail ∧ At o d tail s') ∨
          b = false ∧ (solid r').headD endMark ≠ k.closing ∧ Before o d (solid r') s') := by
  unfold separator at hb
  split at hb
  · cases hb
  · rename_i c s1 hn
    obtain ⟨hc, hread⟩ := nextSolid_read h hn
    split at hb
    · rename_i hk
      obtain ⟨r', rfl⟩ := cons_of_headD hc (Container.separator_ne_endMark hk)
      exact .inr ⟨c, r', rfl, hk, closes_sound hread.at.before hb⟩
    · split at hb
      · rename_i hk
        cases hb
        obtain ⟨r', rfl⟩ := cons_of_headD hc (hk ▸ Container.closing_ne_endMark k)
        exact .inl ⟨rfl, r', by rw [hk], hread.at⟩
      · cases hb

theorem separator_closing (h : Before o d (k.closing :: r) s) :
    ∃ s1, s.separator k = (.ok true, s1) ∧ At o d r s1 := by
  obtain ⟨s1, (hn : s.nextSolid = (.ok k.closing, s1)), hread⟩ := nextSolid_before h
  have hk : k.closing ∉ k.separators := by
    intro hmem
    exact Container.separator_ne_closing hmem rfl
  refine ⟨s1, ?_, hread.at⟩
  simp only [separator, hn, if_neg hk, if_true]

theorem separator_eq_closes {c : Char} (hc : c ∈ k.separators) (h : Before o d (c :: r) s) :
    ∃ s1, s.separator k = s1.closes k ∧ Before o d (solid r) s1 := by
  obtain ⟨s1, (hn : s.nextSolid = (.ok c, s1)), hread⟩ := nextSolid_before h
  refine ⟨s1, ?_, hread.at.before⟩
  simp only [separator, hn, if_pos hc]

/-! ## Keys and colons -/

theorem colon_sound (h : Before o d r s) (hs : s.colon = (.ok (), s')) :
    ∃ r', r = ':' :: r' ∧ At o d r' s' := by
  unfold colon at hs
  split at hs
  · cases hs
  · rename_i c s1 hn
    obtain ⟨hc, hread⟩ := nextSolid_read h hn
    split at hs
    · rename_i hk
      cases hs
      obtain ⟨r', rfl⟩ := cons_of_headD hc (by rw [hk]; decide)
      exact ⟨r', by rw [hk], hread.at⟩
    · cases hs

theorem colon_complete (h : Before o d (':' :: r) s) :
    ∃ s1, s.colon = (.ok (), s1) ∧ At o d r s1 := by
  obtain ⟨s1, (hn : s.nextSolid = (.ok ':', s1)), hread⟩ := nextSolid_before h
  refine ⟨s1, ?_, hread.at⟩
  simp only [colon, hn, if_true]

/-! ## Literals and keys -/

theorem literal_sound {c : Char} (h : At o d (c :: r) s) (hblank : isBlank c = false)
    (hquote : c ≠ '\'') {t : String} (ht : s.bare = (.ok t, s')) (hne : t ≠ "") :
    ∃ w tail, c :: r = w ++ tail ∧ Unquoted w ∧ t = String.ofList w ∧
      Before o d (solid tail) s' := by
  obtain ⟨s1, hs1, hat⟩ := bare_at h
  rw [hs1] at ht
  cases ht
  have hnil : trimBlanks (run (c :: r)) ≠ [] := by
    intro hnil
    exact hne (congrArg String.ofList hnil)
  obtain ⟨hw, tail, hr, hsolid⟩ := unquoted_of_trim rfl hblank hquote hnil
  exact ⟨_, tail, hr, hw, rfl, hsolid ▸ hat.before⟩

theorem literal_complete {w : List Char} (hw : Unquoted w) (htail : Ends tail)
    (h : At o d (w ++ tail) s) :
    ∃ s1, s.bare = (.ok (String.ofList w), s1) ∧ Before o d (solid tail) s1 := by
  obtain ⟨s1, hs1, hat⟩ := bare_at h
  obtain ⟨htrim, hsolid⟩ := trim_of_unquoted hw htail
  refine ⟨s1, ?_, hsolid ▸ hat.before⟩
  rw [hs1]
  exact congrArg (fun w => (Except.ok (String.ofList w), s1)) htrim

theorem nextKey_sound (h : Before o d r s) {key : Option String}
    (hk : s.nextKey = (.ok key, s')) :
    (key = none ∧ ∃ r', r = '\x7d' :: r' ∧ At o d r' s') ∨
      ∃ w tail name, key = some name ∧ r = w ++ tail ∧ Key w name ∧ Before o d (solid tail) s' := by
  unfold nextKey at hk
  split at hk
  · cases hk
  · rename_i c s1 hn
    obtain ⟨hc, hread⟩ := nextSolid_read h hn
    split at hk
    · cases hk
    · rename_i hmark
      obtain ⟨r', rfl⟩ := cons_of_headD hc hmark
      split at hk
      · rename_i hclosing
        cases hk
        exact .inl ⟨rfl, r', by rw [hclosing]; rfl, hread.at⟩
      · split at hk
        · rename_i hquote
          split at hk
          · cases hk
          · rename_i name s2 hs2
            cases hk
            obtain ⟨w, tail, hr, hw, hat⟩ := quoted_sound hquote hread.at hs2
            exact .inr ⟨w, tail, name, rfl, hr, .quoted hw, hat.before⟩
        · rename_i hquote
          split at hk
          · cases hk
          · obtain ⟨s2, hs2, hat⟩ := stepBack_at hread
            rw [hs2] at hk
            dsimp only at hk
            split at hk
            · cases hk
            · rename_i name s3 hs3
              split at hk
              · cases hk
              · rename_i hne
                cases hk
                obtain ⟨w, tail, hr, hw, rfl, hbefore⟩ := literal_sound hat
                  (not_blank_of_solid h.solid_eq) (fun hq => hquote (.inr hq)) hs3 hne
                exact .inr ⟨w, tail, _, rfl, hr, .unquoted hw, hbefore⟩

theorem nextKey_closing (h : Before o d ('\x7d' :: r) s) :
    ∃ s1, s.nextKey = (.ok none, s1) ∧ At o d r s1 := by
  obtain ⟨s1, (hn : s.nextSolid = (.ok '\x7d', s1)), hread⟩ := nextSolid_before h
  have hmark : '\x7d' ≠ endMark := by decide
  refine ⟨s1, ?_, hread.at⟩
  simp only [nextKey, hn, if_neg hmark, Container.closing, if_true]

theorem nextKey_complete {w : List Char} {key : String} (hw : Key w key) (htail : Ends tail)
    (h : Before o d (w ++ tail) s) :
    ∃ s1, s.nextKey = (.ok (some key), s1) ∧ Before o d (solid tail) s1 := by
  cases hw with
  | quoted hq =>
    obtain ⟨quote, w', rfl, hquote, hread_all⟩ := quoted_complete hq
    obtain ⟨s1, (hn : s.nextSolid = (.ok quote, s1)), hread⟩ := nextSolid_before h
    obtain ⟨s2, hs2, hat⟩ := hread_all hread.at
    have hmark : quote ≠ endMark := by rcases hquote with rfl | rfl <;> decide
    have hclosing : quote ≠ Container.object.closing := by rcases hquote with rfl | rfl <;> decide
    refine ⟨s2, ?_, hat.before⟩
    simp only [nextKey, hn, if_neg hmark, if_neg hclosing, if_pos hquote, hs2]
  | unquoted hu =>
    obtain ⟨c, w', rfl, hsolid, hne, hends⟩ := hu.head
    obtain ⟨s1, (hn : s.nextSolid = (.ok c, s1)), hread⟩ := nextSolid_before h
    obtain ⟨s2, hs2, hat⟩ := stepBack_at hread
    obtain ⟨s3, hs3, hbefore⟩ := literal_complete hu htail hat
    have hmark : c ≠ endMark := by
      rintro rfl
      exact absurd hsolid (by decide)
    have hclosing : c ≠ Container.object.closing := by
      rintro rfl
      exact hends (by decide)
    have hquote : ¬(c = '"' ∨ c = '\'') := by
      rintro (rfl | rfl)
      · exact hends (by decide)
      · exact hne rfl
    have hopening : ¬(c = Container.object.opening ∨ c = Container.array.opening) := by
      rintro (rfl | rfl) <;> exact hends (by decide)
    have hname : String.ofList (c :: w') ≠ "" := by simp
    refine ⟨s3, ?_, hbefore⟩
    simp only [nextKey, hn, if_neg hmark, if_neg hclosing, if_neg hquote, if_neg hopening, hs2, hs3,
      if_neg hname]

/-! ## Empty slots -/

theorem emptySlot_sound (h : Before o d r s) {b : Bool} (hb : s.emptySlot = (.ok b, s')) :
    (∃ c r', r = c :: r' ∧ b = decide (c = ',')) ∧ Before o d r s' := by
  unfold emptySlot at hb
  split at hb
  · cases hb
  · rename_i c s1 hn
    obtain ⟨hc, hread⟩ := nextSolid_read h hn
    split at hb
    · cases hb
    · rename_i hmark
      obtain ⟨r', rfl⟩ := cons_of_headD hc hmark
      obtain ⟨s2, hs2, hat⟩ := stepBack_at hread
      rw [hs2] at hb
      cases hb
      exact ⟨⟨c, r', rfl, rfl⟩, hat.before_of_solid h.solid_eq⟩

theorem emptySlot_complete {c : Char} (h : Before o d (c :: r) s) :
    ∃ s1, s.emptySlot = (.ok (decide (c = ',')), s1) ∧ Before o d (c :: r) s1 := by
  obtain ⟨s1, (hn : s.nextSolid = (.ok c, s1)), hread⟩ := nextSolid_before h
  obtain ⟨s2, hs2, hat⟩ := stepBack_at hread
  have hmark : c ≠ endMark := by
    rintro rfl
    exact h.unended List.mem_cons_self
  refine ⟨s2, ?_, hat.before_of_solid h.solid_eq⟩
  simp only [emptySlot, hn, if_neg hmark, hs2]

end Scanner
end LaxJson
