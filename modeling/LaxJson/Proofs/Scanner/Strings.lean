import LaxJson.Proofs.Grammar.Syntax
import LaxJson.Proofs.Scanner.Ahead
import LaxJson.Scanner.Quoted

/-!
# LaxJson.Proofs.Scanner.Strings

Quoted strings are read as the grammar has them: `quoted_sound` and `quoted_complete`, from the
same two facts about one escape.
-/

namespace LaxJson

open Grammar

theorem simpleEscape?_eq_some {letter c : Char} :
    simpleEscape? letter = some c ↔ (letter, c) ∈ escapes := by
  constructor
  · intro h
    unfold simpleEscape? at h
    split at h <;> cases h <;> decide
  · intro h
    simp only [escapes, List.mem_cons, Prod.mk.injEq, List.not_mem_nil, or_false] at h
    rcases h with ⟨rfl, rfl⟩ | ⟨rfl, rfl⟩ | ⟨rfl, rfl⟩ | ⟨rfl, rfl⟩ | ⟨rfl, rfl⟩ | ⟨rfl, rfl⟩ |
      ⟨rfl, rfl⟩ | ⟨rfl, rfl⟩ | ⟨rfl, rfl⟩ <;> rfl

/-- The digits of one range of characters. -/
theorem hexDigit_of_range (shift : Nat) {low high : Nat} {c : Char} (hlow : low ≤ c.toNat)
    (hhigh : c.toNat ≤ high)
    (hall : ∀ m < high + 1, low ≤ m → HexDigit (Char.ofNat m) (m - low + shift)) :
    HexDigit c (c.toNat - low + shift) := by
  have hc := hall c.toNat (Nat.lt_succ_of_le hhigh) hlow
  rwa [Char.ofNat_toNat] at hc

theorem hexDigit?_eq_some {c : Char} {n : Nat} : hexDigit? c = some n ↔ HexDigit c n := by
  constructor
  · intro h
    unfold hexDigit? at h
    split at h
    · rename_i hc
      cases h
      exact hexDigit_of_range 0 hc.1 hc.2 (by decide)
    · split at h
      · rename_i hc
        cases h
        exact hexDigit_of_range 10 hc.1 hc.2 (by decide)
      · split at h
        · rename_i hc
          cases h
          exact hexDigit_of_range 10 hc.1 hc.2 (by decide)
        · cases h
  · rintro ⟨hn, rfl | rfl⟩
    · exact (by decide : ∀ n < 16, hexDigit? (Nat.digitChar n) = some n) n hn
    · exact (by decide : ∀ n < 16, hexDigit? (Nat.digitChar n).toUpper = some n) n hn

theorem hexValue?_cons {n u : Nat} {c : Char} {rest : List Char} :
    hexValue? n (c :: rest) = some u ↔
      ∃ m, HexDigit c m ∧ hexValue? (n * 16 + m) rest = some u := by
  simp only [← hexDigit?_eq_some, hexValue?]
  cases hexDigit? c with
  | none => simp only [reduceCtorEq, false_and, exists_false]
  | some m => simp only [Option.some.injEq, exists_eq_left']

theorem hexValue?_nil {n u : Nat} : hexValue? n [] = some u ↔ n = u := Option.some_inj

theorem hexValue?_four {c₁ c₂ c₃ c₄ : Char} {u : Nat} :
    hexValue? 0 [c₁, c₂, c₃, c₄] = some u ↔ Escape ['u', c₁, c₂, c₃, c₄] [u] := by
  simp only [hexValue?_cons, hexValue?_nil]
  constructor
  · rintro ⟨n₁, h₁, n₂, h₂, n₃, h₃, n₄, h₄, rfl⟩
    rw [Nat.zero_mul, Nat.zero_add]
    exact .unicode h₁ h₂ h₃ h₄
  · intro h
    generalize hu : [u] = us at h
    cases h with
    | unicode h₁ h₂ h₃ h₄ =>
      cases hu
      exact ⟨_, h₁, _, h₂, _, h₃, _, h₄, by rw [Nat.zero_mul, Nat.zero_add]⟩

namespace Scanner

variable {o : Options} {d : Nat} {r : List Char} {s s' : Scanner CharsSource}

theorem escape_sound (h : At o d r s) {x : Escaped} (hx : s.escape = (.ok x, s')) :
    ∃ e us r', r = e ++ r' ∧ Escape e us ∧
      (∀ b : Utf16.Builder, b.pushEscaped x = us.foldl Utf16.Builder.pushUnit b) ∧
      At o d r' s' := by
  obtain ⟨s1, hn, hread⟩ := next_at h
  cases r with
  | nil =>
    rw [escape, hn] at hx
    cases hx
  | cons c r =>
    have hn : s.next = (.ok c, s1) := hn
    simp only [escape, hn] at hx
    by_cases hu : c = 'u'
    · rw [if_pos hu] at hx
      rcases take_four hread.at with ⟨c₁, c₂, c₃, c₄, r', s2, rfl, ht, hat⟩ | ⟨-, e, s2, ht⟩
      · simp only [ht, String.toList_ofList] at hx
        split at hx
        · rename_i u hvalue
          cases hx
          exact ⟨_, [u], r', by rw [hu]; rfl, hexValue?_four.mp hvalue, fun b => rfl, hat⟩
        · cases hx
      · rw [ht] at hx
        cases hx
    · rw [if_neg hu] at hx
      split at hx
      · rename_i c' hc
        cases hx
        exact ⟨[c], _, r, rfl, .simple (simpleEscape?_eq_some.mp hc),
          fun b => Utf16.Builder.push_eq b c', hread.at⟩
      · cases hx

theorem escape_complete {e r' : List Char} {us : List Nat} (he : Escape e us)
    (h : At o d (e ++ r') s) :
    ∃ x s1, s.escape = (.ok x, s1) ∧
      (∀ b : Utf16.Builder, b.pushEscaped x = us.foldl Utf16.Builder.pushUnit b) ∧
      At o d r' s1 := by
  cases he with
  | @simple letter c hc =>
    obtain ⟨s1, (hn : s.next = (.ok letter, s1)), hread⟩ := next_at h
    have hu : letter ≠ 'u' := by
      rintro rfl
      cases simpleEscape?_eq_some.mpr hc
    refine ⟨.char c, s1, ?_, fun b => Utf16.Builder.push_eq b c, hread.at⟩
    simp only [escape, hn, if_neg hu, simpleEscape?_eq_some.mpr hc]
  | @unicode c₁ c₂ c₃ c₄ n₁ n₂ n₃ n₄ h₁ h₂ h₃ h₄ =>
    obtain ⟨s1, (hn : s.next = (.ok 'u', s1)), hread⟩ := next_at h
    rcases take_four hread.at with ⟨d₁, d₂, d₃, d₄, r'', s2, hr, ht, hat⟩ | ⟨hshort, -⟩
    · cases hr
      refine ⟨.unit _, s2, ?_, fun b => rfl, hat⟩
      simp only [escape, hn, if_true, ht, String.toList_ofList,
        hexValue?_four.mpr (.unicode h₁ h₂ h₃ h₄)]
    · exact absurd hshort (by simp)

/-! ## Whole strings -/

theorem quotedFrom_sound {quote : Char} {b : Utf16.Builder} (h : At o d r s) {t : String}
    (ht : quotedFrom quote b s = (.ok t, s')) :
    ∃ w us r', r = w ++ quote :: r' ∧ StringBody quote w us ∧
      t = (us.foldl Utf16.Builder.pushUnit b).finish ∧ At o d r' s' := by
  fun_induction quotedFrom quote b s generalizing r with
  | case1 => cases ht
  | case2 => cases ht
  | case3 => cases ht
  | case4 b s s1 x s2 hx hn _ ih =>
    obtain ⟨hc, hread⟩ := next_read h hn
    obtain ⟨r1, rfl⟩ := cons_of_headD hc (by decide)
    obtain ⟨e, us, r2, rfl, he, hbuilt, hat⟩ := escape_sound hread.at hx
    obtain ⟨w, us', r', rfl, hw, ht', hat'⟩ := ih hat ht
    refine ⟨'\\' :: (e ++ w), us ++ us', r', by simp, .escape he hw, ?_, hat'⟩
    rw [ht', hbuilt, List.foldl_append]
  | case5 b s s1 hn hmark hslash =>
    obtain ⟨hc, hread⟩ := next_read h hn
    obtain ⟨r1, rfl⟩ := cons_of_headD hc hmark
    cases ht
    exact ⟨[], [], r1, rfl, .nil, rfl, hread.at⟩
  | case6 b s c s1 hn hmark hslash hquote ih =>
    obtain ⟨hc, hread⟩ := next_read h hn
    obtain ⟨r1, rfl⟩ := cons_of_headD hc hmark
    obtain ⟨w, us, r', rfl, hw, ht', hat⟩ := ih hread.at ht
    refine ⟨c :: w, Utf16.units c ++ us, r', rfl, .raw hmark hslash hquote hw, ?_, hat⟩
    rw [ht', Utf16.Builder.push_eq, List.foldl_append]

theorem quotedFrom_complete {quote : Char} (hmark : quote ≠ endMark) (hslash : quote ≠ '\\')
    {w r' : List Char} {us : List Nat} (hw : StringBody quote w us) (b : Utf16.Builder)
    (h : At o d (w ++ quote :: r') s) :
    ∃ s1, quotedFrom quote b s = (.ok (us.foldl Utf16.Builder.pushUnit b).finish, s1) ∧
      At o d r' s1 := by
  induction hw generalizing b s with
  | nil =>
    obtain ⟨s1, (hn : s.next = (.ok quote, s1)), hread⟩ := next_at h
    refine ⟨s1, ?_, hread.at⟩
    simp only [quotedFrom_eq quote b s, hn, if_neg hmark, if_neg hslash, if_true]
    rfl
  | @raw c w us hc hcslash hcquote _ ih =>
    obtain ⟨s1, (hn : s.next = (.ok c, s1)), hread⟩ := next_at h
    obtain ⟨s2, hs2, hat⟩ := ih (b.push c) hread.at
    refine ⟨s2, ?_, hat⟩
    simp only [quotedFrom_eq quote b s, hn, if_neg hc, if_neg hcslash, if_neg hcquote, hs2]
    rw [Utf16.Builder.push_eq, List.foldl_append]
  | @escape e w us us' he _ ih =>
    rw [List.cons_append, List.append_assoc] at h
    obtain ⟨s1, (hn : s.next = (.ok '\\', s1)), hread⟩ := next_at h
    obtain ⟨x, s2, hx, hbuilt, hat⟩ := escape_complete he hread.at
    obtain ⟨s3, hs3, hat'⟩ := ih (b.pushEscaped x) hat
    refine ⟨s3, ?_, hat'⟩
    have hne : '\\' ≠ endMark := by decide
    simp only [quotedFrom_eq quote b s, hn, if_neg hne, if_true, hx, hs3]
    rw [hbuilt, List.foldl_append]

theorem quoted_sound {quote : Char} (hquote : quote = '"' ∨ quote = '\'') (h : At o d r s)
    {t : String} (ht : s.quoted quote = (.ok t, s')) :
    ∃ w r', quote :: r = w ++ r' ∧ Quoted w t ∧ At o d r' s' := by
  obtain ⟨w, us, r', rfl, hw, rfl, hat⟩ := quotedFrom_sound h ht
  refine ⟨quote :: (w ++ [quote]), r', by simp, ?_, hat⟩
  rw [Utf16.Builder.finish_pushUnits]
  exact .between hquote hw

/-- A quoted string is read to its end, once its opening quote has been read. -/
theorem quoted_complete {w : List Char} {t : String} (hw : Quoted w t) :
    ∃ quote w', w = quote :: w' ∧ (quote = '"' ∨ quote = '\'') ∧
      ∀ {r' : List Char} {s : Scanner CharsSource}, At o d (w' ++ r') s →
        ∃ s1, s.quoted quote = (.ok t, s1) ∧ At o d r' s1 := by
  cases hw with
  | @between quote w us hquote hbody =>
    refine ⟨quote, w ++ [quote], rfl, hquote, ?_⟩
    intro r' s h
    rw [List.append_assoc, List.singleton_append] at h
    have hmark : quote ≠ endMark := by rcases hquote with rfl | rfl <;> decide
    have hslash : quote ≠ '\\' := by rcases hquote with rfl | rfl <;> decide
    obtain ⟨s1, hs1, hat⟩ := quotedFrom_complete hmark hslash hbody .empty h
    exact ⟨s1, by rw [quoted, hs1, Utf16.Builder.finish_pushUnits], hat⟩

end Scanner

end LaxJson
