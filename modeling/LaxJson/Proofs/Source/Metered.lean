import LaxJson.Proofs.Source.Yields

/-!
# LaxJson.Proofs.Source.Metered

A source that need not be finite, for as many reads as are allowed. Within these it is the source
itself (`read_afterReads_metered`), so that what holds under every budget holds of every source as
far as it is read.
-/

namespace LaxJson

/-- A source of which `budget` more reads are allowed. After these it reports the end. -/
structure MeteredSource (σ : Type) where
  inner : σ
  budget : Nat

namespace MeteredSource

variable {σ : Type} [CharSource σ]

def read : MeteredSource σ → Except SourceError (Option Char) × MeteredSource σ
  | ⟨inner, 0⟩ => (.ok none, ⟨inner, 0⟩)
  | ⟨inner, budget + 1⟩ =>
    match CharSource.read inner with
    | (answer, inner') => (answer, ⟨inner', budget⟩)

def mark (s : MeteredSource σ) (limit : Nat) : Except SourceError Unit × MeteredSource σ :=
  match CharSource.mark s.inner limit with
  | (answer, inner) => (answer, { s with inner := inner })

def reset (s : MeteredSource σ) : Except SourceError Unit × MeteredSource σ :=
  match CharSource.reset s.inner with
  | (answer, inner) => (answer, { s with inner := inner })

/-- Neither a mark nor a reset gives reads back. -/
instance : CharSource (MeteredSource σ) where
  read := read
  mark := mark
  reset := reset
  unmark s := { s with inner := CharSource.unmark s.inner }

theorem read_eq (s : MeteredSource σ) : CharSource.read s = s.read := rfl

theorem read_budget (s : MeteredSource σ) : s.read.2.budget = s.budget - 1 := by
  obtain ⟨inner, _ | budget⟩ := s <;> rfl

/-- Only a read that was allowed brings a character. -/
theorem budget_pos_of_read {s : MeteredSource σ} {c : Char} (h : s.read.1 = .ok (some c)) :
    0 < s.budget := by
  obtain ⟨inner, _ | budget⟩ := s
  · cases h
  · exact Nat.succ_pos budget

/-- A read that leaves some over is the same with more of them. -/
theorem read_allow (extra : Nat) {s : MeteredSource σ} (hleft : s.read.2.budget ≠ 0) :
    read { s with budget := s.budget + extra } =
      (s.read.1, { s.read.2 with budget := s.read.2.budget + extra }) := by
  obtain ⟨inner, _ | budget⟩ := s
  · exact absurd rfl hleft
  · rw [Nat.add_right_comm]
    rfl

instance : FiniteSource (MeteredSource σ) where
  size s := s.budget
  size_read_some := by
    intro s s' c h
    rw [read_eq] at h
    have hspent := s.read_budget
    have hpos : 0 < s.budget := budget_pos_of_read (congrArg Prod.fst h)
    rw [h] at hspent
    exact hspent ▸ Nat.sub_lt hpos Nat.one_pos
  size_read_none := by
    intro s s' h
    rw [read_eq] at h
    have hspent := s.read_budget
    rw [h] at hspent
    exact hspent ▸ Nat.sub_le _ _

open CharSource

/-- Within the budget the reads are those of the source itself. -/
theorem read_afterReads_metered (s : σ) {k n : Nat} (h : k < n) :
    (CharSource.read (afterReads (MeteredSource.mk s n) k)).1 =
      (CharSource.read (afterReads s k)).1 := by
  induction k generalizing s n with
  | zero =>
    obtain ⟨n, rfl⟩ := Nat.exists_eq_succ_of_ne_zero (Nat.pos_iff_ne_zero.mp h)
    rfl
  | succ k ih =>
    obtain ⟨n, rfl⟩ := Nat.exists_eq_succ_of_ne_zero (Nat.pos_iff_ne_zero.mp (Nat.zero_lt_of_lt h))
    exact ih _ (Nat.lt_of_succ_lt_succ h)

end MeteredSource

end LaxJson
