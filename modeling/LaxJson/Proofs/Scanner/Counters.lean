import LaxJson.Proofs.Scanner.Invariant
import LaxJson.Proofs.Source.Metered
import LaxJson.Source.Script

/-!
# LaxJson.Proofs.Scanner.Counters

The counters of a cursor, kept in words of 64 bits. `Lines.advance?`, `Cursor.advance?` and
`Cursor.stepBack?` do the same arithmetic as the cursor itself, but have no result where a sum does
not fit in a word or a difference would be negative.

* `Cursor.Reached`: the cursors that advancing and stepping back lead to.
* `Lines.Within`: how far line and column can have come. A return leaves its break to the next
  character, which takes one column away for the line it adds; so that the sum stays below the
  bound, there has to be one.
* `Cursor.Reached.counts`: no counter leaves its word, as long as the index is far enough below the
  size of a word. `run_counters`: the cursor of every scanner is like that, over any source.
-/

namespace LaxJson

/-! ## Arithmetic in words -/

namespace Word

def add? (m n : Nat) : Option Nat := if m + n < 2 ^ 64 then some (m + n) else none

def sub? (m n : Nat) : Option Nat := if n ≤ m then some (m - n) else none

end Word

/-- `advance` with its sums checked. -/
def Lines.advance? (l : Lines) (c : Char) : Option Lines :=
  if l.afterReturn then
    (Word.add? l.line 1).map fun line => ⟨line, if c = '\n' then 0 else 1, c = '\r'⟩
  else if c = '\n' then
    (Word.add? l.line 1).map fun line => ⟨line, 0, false⟩
  else
    (Word.add? l.column 1).map fun column => ⟨l.line, column, c = '\r'⟩

namespace Cursor

/-- `advance` with its sums checked. -/
def advance? (k : Cursor) (c : Char) : Option Cursor :=
  (Word.add? k.index 1).bind fun index => (k.lines.advance? c).map fun lines =>
    { index := index
      lines := lines
      before := k.lines
      previous := c
      pending := none
      ended := c = endMark }

/-- `stepBack` with its difference checked. -/
def stepBack? (k : Cursor) : Option Cursor :=
  (Word.sub? k.index 1).map fun index =>
    { k with index := index, lines := k.before, pending := some k.previous, ended := false }

end Cursor

theorem Lines.advance?_eq {l : Lines} (hline : l.line + 1 < 2 ^ 64)
    (hcolumn : l.column + 1 < 2 ^ 64) (c : Char) : l.advance? c = some (l.advance c) := by
  have hline : Word.add? l.line 1 = some (l.line + 1) := if_pos hline
  have hcolumn : Word.add? l.column 1 = some (l.column + 1) := if_pos hcolumn
  rw [advance?, advance, hline, hcolumn]
  split
  · rfl
  · split <;> rfl

/-! ## Bounds -/

/-- How far line and column can have come with `n` characters. -/
structure Lines.Within (l : Lines) (n : Nat) : Prop where
  sum : l.line + l.column ≤ n + 2
  line_le : l.line ≤ n + 1
  line_pos : 1 ≤ l.line
  column_pos : l.afterReturn = true → 1 ≤ l.column

theorem Lines.Within.advance {l : Lines} {n : Nat} (h : l.Within n) (c : Char) :
    (l.advance c).Within (n + 1) := by
  obtain ⟨hsum, hle, hpos, hcolumn⟩ := h
  rw [Lines.advance]
  split
  · -- the column that the return took makes up for the new line
    rename_i hreturn
    have hcolumn := hcolumn hreturn
    by_cases hc : c = '\n'
    · subst hc
      constructor <;> simp <;> omega
    · rw [if_neg hc]
      constructor <;> simp <;> omega
  split
  · constructor <;> simp <;> omega
  · constructor <;> simp <;> omega

/-- The cursors that advancing leads to, and stepping back where it is allowed. -/
inductive Cursor.Reached : Cursor → Prop where
  | start : Reached .start
  | advance {k : Cursor} (c : Char) : Reached k → Reached (k.advance c)
  | stepBack {k : Cursor} : k.pending = none → k.index ≠ 0 → Reached k → Reached k.stepBack

namespace Cursor

/-- The lines are within the index. Those ahead of the latest character are within one less, where
that character can be put back. -/
def Counted (k : Cursor) : Prop :=
  k.lines.Within k.index ∧ (k.pending = none → k.index ≠ 0 → k.before.Within (k.index - 1))

theorem counted_lasting : Scanner.Lasting Counted where
  advance c h := ⟨h.1.advance c, fun _ _ => h.1⟩
  stepBack hpending hindex h := ⟨h.2 hpending hindex, nofun⟩

theorem reached_lasting : Scanner.Lasting Reached where
  advance c h := .advance c h
  stepBack hpending hindex h := .stepBack hpending hindex h

theorem Reached.counted {k : Cursor} (h : k.Reached) : k.Counted := by
  induction h with
  | start => exact ⟨⟨by decide, by decide, by decide, by decide⟩, fun _ hindex => absurd rfl hindex⟩
  | advance c _ ih => exact counted_lasting.advance c ih
  | stepBack hpending hindex _ ih => exact counted_lasting.stepBack hpending hindex ih

/-- How the counters stand, and how the next step goes with them. -/
structure Counts (k : Cursor) : Prop where
  sum : k.lines.line + k.lines.column ≤ k.index + 2
  line : 1 ≤ k.lines.line
  column : k.lines.afterReturn = true → 1 ≤ k.lines.column
  /-- No sum leaves its word while fewer characters have been consumed. -/
  advance : k.index < 2 ^ 64 - 2 → ∀ c, k.advance? c = some (k.advance c)
  /-- No difference is negative where a character can be put back. -/
  stepBack : k.pending = none → k.index ≠ 0 → k.stepBack? = some k.stepBack

theorem Reached.counts {k : Cursor} (h : k.Reached) : k.Counts := by
  obtain ⟨⟨hsum, hle, hpos, hcolumn⟩, -⟩ := h.counted
  refine ⟨hsum, hpos, hcolumn, fun hindex c => ?_, fun _ hindex => ?_⟩
  · have hadd : Word.add? k.index 1 = some (k.index + 1) := if_pos (by omega)
    have hlines := Lines.advance?_eq (l := k.lines) (by omega) (by omega) c
    rw [advance?, hadd, hlines]
    rfl
  · have hsub : Word.sub? k.index 1 = some (k.index - 1) := if_pos (by omega)
    rw [stepBack?, hsub]
    rfl

end Cursor

/-! ## After any requests -/

namespace Scanner

/-- The cursor has been reached in steps, and reading and putting back take their steps from it
within a word. -/
structure StaysInWords {σ : Type} [CharSource σ] (s : Scanner σ) : Prop where
  reached : s.cursor.Reached
  next : s.position.index < 2 ^ 64 - 2 → ∀ c s', s.next = (.ok c, s') →
    s.cursor.advance? c = some s'.cursor
  stepBack : ∀ s', s.stepBack = (.ok (), s') → s.cursor.stepBack? = some s'.cursor

theorem staysInWords {σ : Type} [CharSource σ] {s : Scanner σ} (h : s.cursor.Reached) :
    StaysInWords s where
  reached := h
  next := by
    intro hindex c s' hn
    rw [next_ok hn]
    exact h.counts.advance hindex c
  stepBack := by
    intro s' hb
    obtain ⟨⟨hpending, hindex⟩, rfl⟩ := stepBack_ok hb
    exact h.counts.stepBack hpending hindex

/-- **No counter of a cursor leaves its word.** Take any cursor that advancing over characters and
stepping back, where that is allowed, lead to from the start. Line and column together come to at
most the index and two, the line is at least one, and so is the column after a carriage return.
Hence, while the index is less than the size of a word minus two, no sum in an advance is too large
for a word; and no step back takes one from zero. After any requests, over any source, whatever its
reads answer, the cursor of a scanner is such a cursor. Of a source that is not finite, as many
reads are allowed as one likes. -/
theorem run_counters :
    (∀ k : Cursor, k.Reached → k.Counts) ∧
    (∀ (σ : Type) [CharSource σ] [FiniteSource σ] (source : σ) (o : Options)
      (requests : List Request), StaysInWords ((ofSource source o).run requests).2) ∧
    ∀ (σ : Type) [CharSource σ] (source : σ) (reads : Nat) (o : Options)
      (requests : List Request),
      StaysInWords ((ofSource (MeteredSource.mk source reads) o).run requests).2 := by
  have hall : ∀ (σ : Type) [CharSource σ] [FiniteSource σ] (source : σ) (o : Options)
      (requests : List Request), StaysInWords ((ofSource source o).run requests).2 := by
    intro σ _ _ source o requests
    exact staysInWords (Cursor.reached_lasting.invariant.run requests .start)
  refine ⟨fun k hk => hk.counts, hall, ?_⟩
  intro σ _ source reads
  exact hall _ (MeteredSource.mk source reads)

/-- A return, put back and read again, and a line feed after it that a failure delays. The bound on
line and column is met at the start and after the return. -/
theorem run_counters_return :
    let lost : SourceError := ⟨.connectionReset, "connection reset"⟩
    let source : ScriptSource := .ofEvents [.text "\r", .failure lost, .text "\n"]
    let s := ((ofSource source {}).run [.next, .stepBack, .next, .next]).2
    s.cursor.Counts ∧ s.position = ⟨1, 1, 2⟩ ∧ s.next.2.position = ⟨2, 2, 0⟩ ∧
      s.cursor.advance? '\n' = some s.next.2.cursor := by
  intro lost source s
  have hs : StaysInWords s :=
    run_counters.2.1 ScriptSource source {} [.next, .stepBack, .next, .next]
  have hnext : s.next.1 = .ok '\n' := by with_unfolding_all rfl
  have hindex : s.position.index < 2 ^ 64 - 2 := by with_unfolding_all decide
  exact ⟨run_counters.1 _ hs.reached, by with_unfolding_all rfl, by with_unfolding_all rfl,
    hs.next hindex _ _ (Prod.ext hnext rfl)⟩

end Scanner

end LaxJson
