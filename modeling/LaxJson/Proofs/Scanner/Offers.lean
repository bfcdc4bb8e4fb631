import LaxJson.Proofs.Scanner.Handed
import LaxJson.Proofs.Scanner.Seeking

/-!
# LaxJson.Proofs.Scanner.Offers

What a scanner hands out next, whatever its source does after that.

* `Offers`: reading on brings these characters, one by one. The end mark may be among them.
* `next_stepBack`: what was read and put back is offered again.
* `offers_of_gives`: where reads of the source come to its end without a failure, the scanner offers
  what they give, and the end mark.
* `takeFrom_offered`, `takeFrom_ended`: taking a number of characters, where so many are offered and
  where they are not.
-/

namespace LaxJson

open CharSource (Gives Yields)

namespace Scanner

variable {σ : Type} [CharSource σ] {s s1 : Scanner σ} {c : Char} {u w ds : List Char}

/-- Reading on brings the characters of the list; nothing is said of what comes after them. -/
def Offers : List Char → Scanner σ → Prop
  | [], _ => True
  | c :: w, s => s.next.1 = .ok c ∧ Offers w s.next.2

theorem Offers.next (h : Offers (c :: w) s) : s.next = (.ok c, s.next.2) := Prod.ext h.1 rfl

theorem Offers.of_next (hn : s.next = (.ok c, s1)) (h : Offers w s1) : Offers (c :: w) s := by
  rw [Offers, hn]
  exact ⟨rfl, h⟩

theorem nextTimes_add (s : Scanner σ) (m n : Nat) :
    s.nextTimes (m + n) = (s.nextTimes m).nextTimes n := by
  induction m generalizing s with
  | zero => rw [Nat.zero_add]; rfl
  | succ m ih =>
    rw [Nat.succ_add]
    exact ih s.next.2

theorem offers_append : Offers (u ++ w) s ↔ Offers u s ∧ Offers w (s.nextTimes u.length) := by
  induction u generalizing s with
  | nil => exact ⟨fun h => ⟨trivial, h⟩, And.right⟩
  | cons c u ih =>
    rw [List.cons_append, Offers, Offers, ih, and_assoc]
    rfl

theorem Offers.shorter (h : Offers u s) (hw : w <+: u) : Offers w s := by
  obtain ⟨rest, rfl⟩ := hw
  exact (offers_append.mp h).1

/-- A character that was read and put back is to be read once more, with the same outcome. -/
theorem next_stepBack (hn : s.next = (.ok c, s1)) :
    s1.stepBack.2.next = (.ok c, s1) ∧ s1.stepBack.2.position = s.position := by
  have hs1 := next_ok hn
  generalize s1.source = source at hs1
  subst hs1
  rw [stepBack_of_read rfl (Nat.succ_ne_zero _)]
  exact ⟨next_of_pending rfl, Cursor.position_stepBack_advance s.cursor c⟩

/-- Looking at the next character, by reading it and putting it back. -/
theorem Offers.peek (h : Offers (c :: w) s) :
    ∃ s1, s.next.2.stepBack = (.ok (), s1) ∧ Offers (c :: w) s1 ∧ s1.options = s.options ∧
      s1.depth = s.depth := by
  obtain ⟨hnext, -⟩ := next_stepBack h.next
  have hback := (next_handed h.next).stepBack
  obtain ⟨hoptions, hdepth⟩ := next_frame s
  rw [hback] at hnext
  exact ⟨_, hback, .of_next hnext h.2, hoptions, hdepth⟩

theorem offers_of_gives_unpended {cs : List Char} (hpending : s.cursor.pending = none)
    (h : Gives cs s.source) : Offers (untilEnd cs ++ [endMark]) s := by
  induction cs generalizing s with
  | nil => exact ⟨congrArg Prod.fst (next_of_read hpending (Prod.ext h rfl)), trivial⟩
  | cons c cs ih =>
    obtain ⟨hread, hrest⟩ := h
    have hnext := next_of_read hpending (Prod.ext hread rfl)
    by_cases hc : c = endMark
    · rw [hc, untilEnd_mark]
      exact ⟨hc ▸ congrArg Prod.fst hnext, trivial⟩
    · rw [untilEnd_cons hc]
      exact .of_next hnext (ih rfl hrest)

/-- What the source gives before its end is what the scanner offers, pushback first, up to the first
end mark. -/
theorem offers_of_gives {cs : List Char} (h : Gives cs s.source) :
    Offers (s.stream cs ++ [endMark]) s := by
  rw [stream]
  cases hpending : s.cursor.pending with
  | none => exact offers_of_gives_unpended hpending h
  | some c =>
    have hnext := next_of_pending hpending
    rw [Option.toList_some, List.singleton_append]
    by_cases hc : c = endMark
    · rw [hc, untilEnd_mark]
      exact ⟨hc ▸ congrArg Prod.fst hnext, trivial⟩
    · rw [untilEnd_cons hc]
      exact .of_next hnext (offers_of_gives_unpended rfl h)

theorem offers_of_yields {cs : List Char} (h : Yields s.source cs) :
    Offers (s.stream cs ++ [endMark]) s :=
  offers_of_gives h.gives

/-! ## Taking a number of characters -/

theorem takeFrom_offered (text : List Char) (hmark : endMark ∉ ds) (h : Offers ds s) :
    s.takeFrom text ds.length =
      (.ok (String.ofList (text.reverse ++ ds)), s.nextTimes ds.length) := by
  induction ds generalizing s text with
  | nil => rw [List.append_nil]; rfl
  | cons c ds ih =>
    rw [List.mem_cons, not_or] at hmark
    rw [List.length_cons, takeFrom, h.next]
    simp only [(next_handed h.next).open (Ne.symm hmark.1), Bool.false_eq_true, if_false]
    rw [ih (c :: text) hmark.2 h.2, List.reverse_cons, List.append_assoc]
    rfl

theorem takeFrom_ended {n : Nat} (text : List Char) (hn : ds.length < n) (hmark : endMark ∉ ds)
    (h : Offers (ds ++ [endMark]) s) :
    s.takeFrom text n = (s.nextTimes (ds.length + 1)).fail .textTooShort := by
  induction ds generalizing s text n with
  | nil =>
    obtain ⟨n, rfl⟩ := Nat.exists_eq_succ_of_ne_zero (Nat.ne_zero_of_lt hn)
    rw [takeFrom, Offers.next h]
    simp only [(next_handed (Offers.next h)).atEnd, decide_true, if_true]
    rfl
  | cons c ds ih =>
    obtain ⟨n, rfl⟩ := Nat.exists_eq_succ_of_ne_zero (Nat.ne_zero_of_lt hn)
    rw [List.mem_cons, not_or] at hmark
    rw [takeFrom, Offers.next h]
    simp only [(next_handed (Offers.next h)).open (Ne.symm hmark.1), Bool.false_eq_true, if_false]
    exact ih (c :: text) (Nat.lt_of_succ_lt_succ hn) hmark.2 h.2

section Finite

variable [FiniteSource σ]

theorem Offers.nextSolid (h : Offers (c :: w) s) (hc : isBlank c = false) :
    s.nextSolid = (.ok c, s.next.2) := by
  rw [nextSolid_eq, h.next]
  exact if_pos (.inr hc)

end Finite

end Scanner

end LaxJson
