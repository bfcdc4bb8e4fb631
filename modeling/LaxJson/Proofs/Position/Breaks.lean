import LaxJson.Position
import Mathlib.Data.List.Induction
import Mathlib.Data.Nat.Find

/-!
# LaxJson.Proofs.Position.Breaks

Line and column of a text read so far, said without reading it: where its line breaks are. A line
feed ends a line, a carriage return does so as soon as another character follows it, and the two
together, in this order, are one break.

* `Lines.after`: what advancing over a list of characters leads to.
* `lineOf`, `columnOf`: the reference, from the places of line feeds and carriage returns.
* `after_line`, `after_column`: they are the same.
-/

namespace LaxJson

/-- The character at `k` is a line feed with no carriage return directly before it. -/
def LoneFeed (cs : List Char) (k : Nat) : Prop :=
  cs[k]? = some '\n' ∧ (k = 0 ∨ cs[k - 1]? ≠ some '\r')

instance (cs : List Char) : DecidablePred (LoneFeed cs) :=
  fun k => inferInstanceAs (Decidable (cs[k]? = some '\n' ∧ (k = 0 ∨ cs[k - 1]? ≠ some '\r')))

/-- The line after `cs`: one more than the lone line feeds and the carriage returns that something
follows. -/
def lineOf (cs : List Char) : Nat :=
  1 + (List.range cs.length).countP (fun k => LoneFeed cs k) + cs.dropLast.count '\r'

/-- The first `p` characters of `cs` end with a complete line break. -/
def BreakEnds (cs : List Char) (p : Nat) : Prop :=
  0 < p ∧ p ≤ cs.length ∧
    (cs[p - 1]? = some '\n' ∨ cs[p - 1]? = some '\r' ∧ p < cs.length ∧ cs[p]? ≠ some '\n')

instance (cs : List Char) : DecidablePred (BreakEnds cs) :=
  fun p => inferInstanceAs (Decidable (0 < p ∧ p ≤ cs.length ∧
    (cs[p - 1]? = some '\n' ∨ cs[p - 1]? = some '\r' ∧ p < cs.length ∧ cs[p]? ≠ some '\n')))

/-- Where the last complete line break of `cs` ends, or zero if there is none. -/
def lastBreak (cs : List Char) : Nat := Nat.findGreatest (BreakEnds cs) cs.length

/-- The column after `cs`: the characters since the last complete line break; the first line starts
at column 1. -/
def columnOf (cs : List Char) : Nat :=
  if lastBreak cs = 0 then 1 + cs.length else cs.length - lastBreak cs

/-- The position after `cs`. -/
def positionAfter (cs : List Char) : Position := ⟨cs.length, lineOf cs, columnOf cs⟩

theorem lastBreak_le (cs : List Char) : lastBreak cs ≤ cs.length := Nat.findGreatest_le _

/-! ## One more character -/

theorem loneFeed_append (cs : List Char) (c : Char) {k : Nat} (hk : k < cs.length) :
    LoneFeed (cs ++ [c]) k ↔ LoneFeed cs k := by
  have hprev : k - 1 < cs.length := by omega
  simp only [LoneFeed, List.getElem?_append_left hk, List.getElem?_append_left hprev]

theorem loneFeed_last (cs : List Char) (c : Char) :
    LoneFeed (cs ++ [c]) cs.length ↔ c = '\n' ∧ cs.getLast? ≠ some '\r' := by
  rcases List.eq_nil_or_concat cs with rfl | ⟨init, d, rfl⟩
  · simp [LoneFeed]
  · simp [LoneFeed]

theorem lineOf_append (cs : List Char) (c : Char) :
    lineOf (cs ++ [c]) =
      lineOf cs + (if c = '\n' ∧ cs.getLast? ≠ some '\r' then 1 else 0) +
        (if cs.getLast? = some '\r' then 1 else 0) := by
  have hfeeds : (List.range cs.length).countP (fun k => LoneFeed (cs ++ [c]) k) =
      (List.range cs.length).countP (fun k => LoneFeed cs k) := by
    refine List.countP_congr fun k hk => ?_
    simp only [decide_eq_true_eq]
    exact loneFeed_append cs c (List.mem_range.mp hk)
  have hreturns : cs.count '\r' =
      cs.dropLast.count '\r' + (if cs.getLast? = some '\r' then 1 else 0) := by
    rcases List.eq_nil_or_concat cs with rfl | ⟨init, d, rfl⟩
    · rfl
    · simp [List.count_append, List.count_singleton]
  simp only [lineOf, List.length_append, List.length_singleton, List.range_succ,
    List.countP_append, hfeeds, List.countP_singleton, loneFeed_last, decide_eq_true_eq,
    List.dropLast_concat, hreturns]
  omega

theorem breakEnds_append (cs : List Char) (c : Char) {p : Nat} (hp : p < cs.length) :
    BreakEnds (cs ++ [c]) p ↔ BreakEnds cs p := by
  have hprev : p - 1 < cs.length := by omega
  simp only [BreakEnds, List.getElem?_append_left hp, List.getElem?_append_left hprev,
    List.length_append, List.length_singleton]
  constructor
  · rintro ⟨h0, -, h⟩
    exact ⟨h0, by omega, h.imp id fun h => ⟨h.1, hp, h.2.2⟩⟩
  · rintro ⟨h0, -, h⟩
    exact ⟨h0, by omega, h.imp id fun h => ⟨h.1, by omega, h.2.2⟩⟩

/-- Whether a break ends just before the last of the characters. -/
theorem breakEnds_length (cs : List Char) (c : Char) :
    BreakEnds (cs ++ [c]) cs.length ↔
      cs.getLast? = some '\n' ∨ cs.getLast? = some '\r' ∧ c ≠ '\n' := by
  rcases List.eq_nil_or_concat cs with rfl | ⟨init, d, rfl⟩
  · simp [BreakEnds]
  · simp [BreakEnds]

theorem breakEnds_self (cs : List Char) (c : Char) :
    BreakEnds (cs ++ [c]) (cs.length + 1) ↔ c = '\n' := by
  simp [BreakEnds]

theorem findGreatest_congr {P Q : Nat → Prop} [DecidablePred P] [DecidablePred Q] {n : Nat}
    (h : ∀ k, k ≤ n → (P k ↔ Q k)) : Nat.findGreatest P n = Nat.findGreatest Q n := by
  induction n with
  | zero => rfl
  | succ n ih =>
    have hpq := h (n + 1) (Nat.le_refl _)
    have ih := ih fun k hk => h k (by omega)
    simp only [Nat.findGreatest_succ, hpq, ih]

theorem lastBreak_feed (cs : List Char) : lastBreak (cs ++ ['\n']) = cs.length + 1 := by
  have h : BreakEnds (cs ++ ['\n']) (cs.length + 1) := (breakEnds_self cs '\n').mpr rfl
  rw [lastBreak, List.length_append, List.length_singleton]
  exact Nat.findGreatest_eq h

theorem lastBreak_return {cs : List Char} {c : Char} (hr : cs.getLast? = some '\r')
    (hc : c ≠ '\n') : lastBreak (cs ++ [c]) = cs.length := by
  have hself : ¬ BreakEnds (cs ++ [c]) (cs.length + 1) := fun h => hc ((breakEnds_self cs c).mp h)
  have hbreak : BreakEnds (cs ++ [c]) cs.length := (breakEnds_length cs c).mpr (.inr ⟨hr, hc⟩)
  rw [lastBreak, List.length_append, List.length_singleton, Nat.findGreatest_of_not hself]
  exact Nat.findGreatest_eq hbreak

/-- Without a carriage return just before it, a character that is no line feed ends nothing. -/
theorem lastBreak_other {cs : List Char} {c : Char} (hr : cs.getLast? ≠ some '\r')
    (hc : c ≠ '\n') : lastBreak (cs ++ [c]) = lastBreak cs := by
  have hself : ¬ BreakEnds (cs ++ [c]) (cs.length + 1) := fun h => hc ((breakEnds_self cs c).mp h)
  rw [lastBreak, List.length_append, List.length_singleton, Nat.findGreatest_of_not hself,
    lastBreak]
  refine findGreatest_congr fun p hp => ?_
  rcases Nat.lt_or_eq_of_le hp with hlt | rfl
  · exact breakEnds_append cs c hlt
  · rw [breakEnds_length]
    rcases List.eq_nil_or_concat cs with rfl | ⟨init, d, rfl⟩
    · simp [BreakEnds]
    · have hd : d ≠ '\r' := by simpa using hr
      simp [BreakEnds, hd]

theorem columnOf_feed (cs : List Char) : columnOf (cs ++ ['\n']) = 0 := by
  simp [columnOf, lastBreak_feed]

theorem columnOf_return {cs : List Char} {c : Char} (hr : cs.getLast? = some '\r')
    (hc : c ≠ '\n') : columnOf (cs ++ [c]) = 1 := by
  have hpos : 0 < cs.length := by
    rw [List.length_pos_iff]
    rintro rfl
    cases hr
  rw [columnOf, lastBreak_return hr hc, if_neg (by omega), List.length_append,
    List.length_singleton]
  omega

theorem columnOf_other {cs : List Char} {c : Char} (hr : cs.getLast? ≠ some '\r')
    (hc : c ≠ '\n') : columnOf (cs ++ [c]) = columnOf cs + 1 := by
  have hle := lastBreak_le cs
  simp only [columnOf, lastBreak_other hr hc, List.length_append, List.length_singleton]
  split <;> omega

/-! ## Advancing -/

namespace Lines

/-- Line and column after the characters `cs`. -/
def after (cs : List Char) : Lines := cs.foldl advance start

theorem after_append (cs : List Char) (c : Char) : after (cs ++ [c]) = (after cs).advance c := by
  simp only [after, List.foldl_append, List.foldl_cons, List.foldl_nil]

theorem after_afterReturn (cs : List Char) :
    (after cs).afterReturn = decide (cs.getLast? = some '\r') := by
  rcases List.eq_nil_or_concat cs with rfl | ⟨init, c, rfl⟩
  · rfl
  · simp only [List.concat_eq_append, after_append, advance, List.getLast?_append,
      List.getLast?_singleton, Option.some_or, Option.some.injEq]
    by_cases hr : (after init).afterReturn = true
    · simp [hr]
    · by_cases hc : c = '\n'
      · simp [hr, hc]
      · simp [hr, hc]

/-- The line number counts the line breaks. -/
theorem after_line (cs : List Char) : (after cs).line = lineOf cs := by
  induction cs using List.reverseRecOn with
  | nil => rfl
  | append_singleton cs c ih =>
    rw [after_append, lineOf_append, ← ih, advance, after_afterReturn]
    by_cases hr : cs.getLast? = some '\r'
    · simp [hr]
    · by_cases hc : c = '\n'
      · simp [hr, hc]
      · simp [hr, hc]

/-- The column counts from the last complete line break. -/
theorem after_column (cs : List Char) : (after cs).column = columnOf cs := by
  induction cs using List.reverseRecOn with
  | nil => rfl
  | append_singleton cs c ih =>
    rw [after_append, advance, after_afterReturn]
    by_cases hc : c = '\n'
    · subst hc
      rw [columnOf_feed]
      by_cases hr : cs.getLast? = some '\r' <;> simp [hr]
    · by_cases hr : cs.getLast? = some '\r'
      · rw [columnOf_return hr hc]
        simp [hr, hc]
      · rw [columnOf_other hr hc, ← ih]
        simp [hr, hc]

end Lines

end LaxJson
