import LaxJson.Scanner.Field
import Mathlib.Data.List.DropRight

/-!
# LaxJson.Proofs.Scanner.Ahead

What a scanner over a list of characters reads, as functions of what it has left to read. `At` says
what is left before the first end mark; after a read `JustRead` remembers what was left before it,
which is what stepping back restores. `Before` looks past any blanks, as most operations do.

* `next_at`, `stepBack_at`, `nextSolid_before`: one character.
* `bare_at`: an unquoted piece.
-/

namespace LaxJson

/-- The characters before the first end mark. -/
def untilEnd (l : List Char) : List Char := l.takeWhile fun c => c ≠ endMark

theorem untilEnd_mark (l : List Char) : untilEnd (endMark :: l) = [] :=
  List.takeWhile_cons_of_neg (by decide)

theorem untilEnd_cons {c : Char} (h : c ≠ endMark) (l : List Char) :
    untilEnd (c :: l) = c :: untilEnd l :=
  List.takeWhile_cons_of_pos (decide_eq_true h)

theorem not_mem_untilEnd (l : List Char) : endMark ∉ untilEnd l := by
  intro h
  rw [untilEnd] at h
  exact absurd (List.mem_takeWhile_imp h) (by decide)

theorem length_untilEnd_le (l : List Char) : (untilEnd l).length ≤ l.length :=
  (List.takeWhile_prefix _).length_le

theorem take_untilEnd {l : List Char} {n : Nat} (h : n ≤ (untilEnd l).length) :
    (untilEnd l).take n = l.take n := by
  obtain ⟨rest, hrest⟩ := List.takeWhile_prefix (l := l) fun c => decide (c ≠ endMark)
  have hrest : untilEnd l ++ rest = l := hrest
  conv => rhs; rw [← hrest, List.take_append_of_le_length h]

theorem untilEnd_take {l : List Char} {n : Nat} (h : n ≤ (untilEnd l).length) :
    untilEnd (l.take n) = l.take n := by
  rw [← take_untilEnd h, untilEnd, List.takeWhile_eq_self_iff]
  intro c hc
  refine decide_eq_true fun hmark => not_mem_untilEnd l ?_
  exact hmark ▸ List.mem_of_mem_take hc

theorem headD_untilEnd (l : List Char) : (untilEnd l).headD endMark = l.headD endMark := by
  cases l with
  | nil => rfl
  | cons c l =>
    by_cases hc : c = endMark
    · rw [hc, untilEnd_mark]
      rfl
    · rw [untilEnd_cons hc]
      rfl

theorem tail_untilEnd {l : List Char} (h : untilEnd l ≠ []) :
    (untilEnd l).tail = untilEnd l.tail := by
  cases l with
  | nil => rfl
  | cons c l =>
    by_cases hc : c = endMark
    · rw [hc, untilEnd_mark] at h
      exact absurd rfl h
    · rw [untilEnd_cons hc]
      rfl

/-- The characters after any blanks at the start. -/
def solid (r : List Char) : List Char := r.dropWhile isBlank

theorem solid_solid (r : List Char) : solid (solid r) = solid r :=
  List.dropWhile_idempotent isBlank r

theorem solid_cons_of_blank {c : Char} (h : isBlank c = true) (r : List Char) :
    solid (c :: r) = solid r := List.dropWhile_cons_of_pos h

theorem solid_cons_of_not_blank {c : Char} (h : isBlank c = false) (r : List Char) :
    solid (c :: r) = c :: r := List.dropWhile_cons_of_neg (by rw [h]; exact Bool.false_ne_true)

theorem solid_append_of_blank {w : List Char} (h : ∀ c ∈ w, isBlank c = true) (r : List Char) :
    solid (w ++ r) = solid r :=
  List.dropWhile_append_of_pos h

theorem not_blank_of_solid {c : Char} {r r' : List Char} (h : solid r = c :: r') :
    isBlank c = false := by
  induction r with
  | nil => cases h
  | cons d r ih =>
    cases hd : isBlank d with
    | true => exact ih (solid_cons_of_blank hd r ▸ h)
    | false =>
      rw [solid_cons_of_not_blank hd] at h
      cases h
      exact hd

theorem not_mem_solid {c : Char} {r : List Char} (h : c ∉ r) : c ∉ solid r := by
  intro hmem
  exact h ((List.dropWhile_suffix isBlank).mem hmem)

namespace Scanner

/-- What is left to read, the pushback included. -/
def left (s : Scanner CharsSource) : List Char := s.cursor.pending.toList ++ s.source.chars

/-- What is left to read before the first end mark. -/
def rest (s : Scanner CharsSource) : List Char := untilEnd s.left

variable {o : Options} {d : Nat} {r : List Char} {s : Scanner CharsSource}

/-- Under these options, with `d` containers open, the scanner has `r` left to read. -/
structure At (o : Options) (d : Nat) (r : List Char) (s : Scanner CharsSource) : Prop where
  options : s.options = o
  depth : s.depth = d
  rest : s.rest = r

/-- The scanner had `r` left to read, and read one character; at the end that is the end mark. -/
structure JustRead (o : Options) (d : Nat) (r : List Char) (s : Scanner CharsSource) : Prop where
  options : s.options = o
  depth : s.depth = d
  pending : s.cursor.pending = none
  index : s.cursor.index ≠ 0
  previous : s.cursor.previous = r.headD endMark
  atEnd : s.atEnd = r.isEmpty
  rest : r ≠ [] → s.rest = r.tail
  unended : endMark ∉ r

/-- Past any blanks the scanner has `r` left to read. -/
structure Before (o : Options) (d : Nat) (r : List Char) (s : Scanner CharsSource) : Prop where
  options : s.options = o
  depth : s.depth = d
  rest : solid s.rest = r

theorem At.unended (h : At o d r s) : endMark ∉ r :=
  h.rest ▸ not_mem_untilEnd s.left

theorem At.before (h : At o d r s) : Before o d (solid r) s :=
  ⟨h.options, h.depth, congrArg solid h.rest⟩

theorem Before.exists_at (h : Before o d r s) : ∃ r', At o d r' s ∧ solid r' = r :=
  ⟨s.rest, ⟨h.options, h.depth, rfl⟩, h.rest⟩

theorem Before.unended (h : Before o d r s) : endMark ∉ r := by
  obtain ⟨r', hat, rfl⟩ := h.exists_at
  exact not_mem_solid hat.unended

theorem Before.solid_eq (h : Before o d r s) : solid r = r := by
  rw [← h.rest, solid_solid]

theorem JustRead.at {c : Char} (h : JustRead o d (c :: r) s) : At o d r s :=
  ⟨h.options, h.depth, h.rest (List.cons_ne_nil c r)⟩

/-! ## One character -/

theorem next_left (s : Scanner CharsSource) :
    s.next = (.ok (s.left.headD endMark),
      ⟨⟨s.left.tail⟩, s.cursor.advance (s.left.headD endMark), s.options, s.depth⟩) := by
  obtain ⟨⟨chars⟩, cursor, options, depth⟩ := s
  simp only [next, left]
  cases cursor.pending with
  | some c => rfl
  | none =>
    simp only [CharSource.read, CharsSource.read_eq]
    cases chars <;> rfl

theorem atEnd_advance (k : Cursor) (h : endMark ∉ r) :
    (k.advance (r.headD endMark)).atEnd = r.isEmpty := by
  cases r with
  | nil => rfl
  | cons c r =>
    have hc : c ≠ endMark := by
      rintro rfl
      exact h List.mem_cons_self
    simp only [Cursor.atEnd, Cursor.advance, List.headD_cons, hc, decide_false, Bool.false_and,
      List.isEmpty_cons]

theorem next_at (h : At o d r s) :
    ∃ s1, s.next = (.ok (r.headD endMark), s1) ∧ JustRead o d r s1 := by
  obtain ⟨rfl, rfl, rfl⟩ := h
  rw [next_left, ← headD_untilEnd]
  refine ⟨_, rfl, rfl, rfl, rfl, Nat.succ_ne_zero _, rfl, ?_, ?_, not_mem_untilEnd s.left⟩
  · exact atEnd_advance s.cursor (not_mem_untilEnd s.left)
  · intro hne
    exact (tail_untilEnd hne).symm

theorem next_read (h : At o d r s) {c : Char} {s1 : Scanner CharsSource}
    (hn : s.next = (.ok c, s1)) : c = r.headD endMark ∧ JustRead o d r s1 := by
  obtain ⟨s2, hs2, hread⟩ := next_at h
  obtain ⟨hc, rfl⟩ := Prod.mk.inj (hn.symm.trans hs2)
  exact ⟨Except.ok.inj hc, hread⟩

theorem cons_of_headD {c : Char} (h : c = r.headD endMark) (hc : c ≠ endMark) :
    ∃ r', r = c :: r' := by
  cases r with
  | nil => exact absurd h hc
  | cons c' r' => exact ⟨r', by rw [h]; rfl⟩

theorem stepBack_at (h : JustRead o d r s) :
    ∃ s1, s.stepBack = (.ok (), s1) ∧ At o d r s1 := by
  refine ⟨{ s with cursor := s.cursor.stepBack }, ?_, h.options, h.depth, ?_⟩
  · exact stepBack_of_read h.pending h.index
  · have hrest := h.rest
    rw [rest, left, h.pending] at hrest
    show untilEnd (s.cursor.previous :: s.source.chars) = r
    rw [h.previous]
    cases r with
    | nil => exact untilEnd_mark s.source.chars
    | cons c r =>
      have hc : c ≠ endMark := by
        rintro rfl
        exact h.unended List.mem_cons_self
      rw [List.headD_cons, untilEnd_cons hc]
      exact congrArg (List.cons c) (hrest (List.cons_ne_nil c r))

theorem nextSolid_before (h : Before o d r s) :
    ∃ s1, s.nextSolid = (.ok (r.headD endMark), s1) ∧ JustRead o d r s1 := by
  obtain ⟨r', hat, rfl⟩ := h.exists_at
  clear h
  induction r' generalizing s with
  | nil =>
    obtain ⟨s1, hn, hread⟩ := next_at hat
    refine ⟨s1, ?_, hread⟩
    rw [nextSolid_eq, hn]
    rfl
  | cons c r' ih =>
    obtain ⟨s1, hn, hread⟩ := next_at hat
    rw [nextSolid_eq, hn]
    cases hc : isBlank c with
    | true =>
      have hmark : c ≠ endMark := by
        rintro rfl
        exact hat.unended List.mem_cons_self
      obtain ⟨s2, hs2, hread2⟩ := ih hread.at
      refine ⟨s2, ?_, solid_cons_of_blank hc r' ▸ hread2⟩
      rw [solid_cons_of_blank hc]
      simp only [List.headD_cons, hc, hmark, Bool.true_eq_false, or_self, if_false, hs2]
    | false =>
      rw [solid_cons_of_not_blank hc]
      refine ⟨s1, ?_, hread⟩
      simp only [List.headD_cons, hc, or_true, if_true]

theorem nextSolid_read (h : Before o d r s) {c : Char} {s1 : Scanner CharsSource}
    (hn : s.nextSolid = (.ok c, s1)) : c = r.headD endMark ∧ JustRead o d r s1 := by
  obtain ⟨s2, hs2, hread⟩ := nextSolid_before h
  obtain ⟨hc, rfl⟩ := Prod.mk.inj (hn.symm.trans hs2)
  exact ⟨Except.ok.inj hc, hread⟩

/-! ## Several characters -/

theorem bareFrom_at (text : List Char) (h : At o d r s) :
    ∃ s1, bareFrom text s =
        (.ok (String.ofList (trimBlanks (text.reverse ++ r.takeWhile fun c => !endsBare c))), s1) ∧
      At o d (r.dropWhile fun c => !endsBare c) s1 := by
  induction r generalizing text s with
  | nil =>
    obtain ⟨s1, hn, hread⟩ := next_at h
    obtain ⟨s2, hb, hat⟩ := stepBack_at hread
    refine ⟨s2, ?_, hat⟩
    rw [bareFrom_eq, hn]
    simp only [List.headD_nil, show endsBare endMark = true from rfl, if_true, hb,
      List.takeWhile_nil, List.append_nil]
  | cons c r ih =>
    obtain ⟨s1, hn, hread⟩ := next_at h
    rw [bareFrom_eq, hn]
    cases hc : endsBare c with
    | true =>
      obtain ⟨s2, hb, hat⟩ := stepBack_at hread
      refine ⟨s2, ?_, ?_⟩
      · simp only [List.headD_cons, hc, if_true, hb, List.takeWhile_cons, Bool.not_true,
          Bool.false_eq_true, if_false, List.append_nil]
      · rwa [List.dropWhile_cons_of_neg (by simp [hc])]
    | false =>
      obtain ⟨s2, hs2, hat⟩ := ih (c :: text) hread.at
      refine ⟨s2, ?_, ?_⟩
      · simp only [List.headD_cons, hc, Bool.false_eq_true, if_false, hs2, List.takeWhile_cons,
          Bool.not_false, if_true, List.reverse_cons, List.append_assoc, List.singleton_append]
      · rwa [List.dropWhile_cons_of_pos (by simp [hc])]

theorem bare_at (h : At o d r s) :
    ∃ s1, s.bare = (.ok (String.ofList (trimBlanks (r.takeWhile fun c => !endsBare c))), s1) ∧
      At o d (r.dropWhile fun c => !endsBare c) s1 :=
  bareFrom_at [] h

theorem takeFrom_at {n : Nat} (text : List Char) (h : At o d r s) (hn : n ≤ r.length) :
    ∃ s1, s.takeFrom text n = (.ok (String.ofList (text.reverse ++ r.take n)), s1) ∧
      At o d (r.drop n) s1 := by
  induction n generalizing text r s with
  | zero => exact ⟨s, by rw [takeFrom, List.take_zero, List.append_nil], h⟩
  | succ n ih =>
    cases r with
    | nil => cases hn
    | cons c r =>
      obtain ⟨s1, hnext, hread⟩ := next_at h
      have hend : s1.atEnd = false := hread.atEnd
      obtain ⟨s2, hs2, hat⟩ := ih (c :: text) hread.at (Nat.le_of_succ_le_succ hn)
      refine ⟨s2, ?_, hat⟩
      rw [takeFrom, hnext]
      simp only [List.headD_cons, hend, Bool.false_eq_true, if_false, hs2, List.reverse_cons,
        List.append_assoc, List.singleton_append, List.take_succ_cons]

theorem takeFrom_short {n : Nat} (text : List Char) (h : At o d r s) (hn : r.length < n) :
    ∃ e s1, s.takeFrom text n = (.error e, s1) := by
  induction n generalizing text r s with
  | zero => cases hn
  | succ n ih =>
    obtain ⟨s1, hnext, hread⟩ := next_at h
    rw [takeFrom, hnext]
    cases r with
    | nil =>
      have hend : s1.atEnd = true := hread.atEnd
      exact ⟨_, s1, by simp only [hend, if_true]; rfl⟩
    | cons c r =>
      have hend : s1.atEnd = false := hread.atEnd
      simp only [hend, Bool.false_eq_true, if_false]
      exact ih _ hread.at (Nat.lt_of_succ_lt_succ hn)

/-- Exactly four characters, if there are that many. -/
theorem take_four (h : At o d r s) :
    (∃ c₁ c₂ c₃ c₄ r' s1, r = c₁ :: c₂ :: c₃ :: c₄ :: r' ∧
        s.take 4 = (.ok (String.ofList [c₁, c₂, c₃, c₄]), s1) ∧ At o d r' s1) ∨
      r.length < 4 ∧ ∃ e s1, s.take 4 = (.error e, s1) := by
  rw [take_of_le (by decide)]
  match r, h with
  | [], h | [_], h | [_, _], h | [_, _, _], h =>
    exact .inr ⟨by simp only [List.length_cons, List.length_nil]; omega,
      takeFrom_short [] h (by simp only [List.length_cons, List.length_nil]; omega)⟩
  | c₁ :: c₂ :: c₃ :: c₄ :: r', h =>
    obtain ⟨s1, hs1, hat⟩ := takeFrom_at [] h (show 4 ≤ _ by simp)
    exact .inl ⟨c₁, c₂, c₃, c₄, r', s1, rfl, hs1, hat⟩

end Scanner

end LaxJson
