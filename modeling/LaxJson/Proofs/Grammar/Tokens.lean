import LaxJson.Proofs.Grammar.Syntax
import LaxJson.Proofs.Scanner.Ahead

/-!
# LaxJson.Proofs.Grammar.Tokens

Blanks and literals, where they stand in what is left to read. A scanner finds the end of a literal
by going on to the first character that cannot be part of one and cutting off the blanks before it;
`unquoted_of_trim` and `trim_of_unquoted` say that this finds the literals of the grammar.
-/

namespace LaxJson
namespace Grammar

open Scanner (endsBare)

/-! ## Blanks -/

theorem isBlank_iff {c : Char} : isBlank c = true ↔ c ≤ ' ' := decide_eq_true_iff

theorem not_blank_iff {c : Char} : isBlank c = false ↔ ' ' < c := by
  rw [Bool.eq_false_iff, ne_eq, isBlank_iff, Char.not_le]

theorem Blanks.nil : Blanks [] := by
  intro c hc
  cases hc

theorem Blanks.blank {w : List Char} (h : Blanks w) : ∀ c ∈ w, isBlank c = true := by
  intro c hc
  exact isBlank_iff.mpr (h c hc).2

theorem Blanks.of_isBlank {w : List Char} (h : ∀ c ∈ w, isBlank c = true)
    (hend : endMark ∉ w) : Blanks w := by
  intro c hc
  refine ⟨?_, isBlank_iff.mp (h c hc)⟩
  have hne : c ≠ endMark := by
    rintro rfl
    exact hend hc
  have hpos : c.toNat ≠ 0 := by
    intro h0
    apply hne
    rw [← Char.ofNat_toNat c, h0]
    rfl
  show 1 ≤ c.toNat
  omega

theorem Blanks.solid_append {w : List Char} (h : Blanks w) (r : List Char) :
    solid (w ++ r) = solid r := solid_append_of_blank h.blank r

theorem Blanks.unique {b b' l l' : List Char} (hb : Blanks b) (hb' : Blanks b')
    (hl : solid l = l) (hl' : solid l' = l') (h : b ++ l = b' ++ l') : b = b' ∧ l = l' := by
  have hsolid := congrArg solid h
  rw [hb.solid_append, hb'.solid_append, hl, hl'] at hsolid
  subst hsolid
  exact ⟨List.append_cancel_right h, rfl⟩

/-- What stands before the first character that is no blank. -/
theorem exists_blanks {r : List Char} (h : endMark ∉ r) : ∃ b, Blanks b ∧ r = b ++ solid r := by
  refine ⟨r.takeWhile isBlank, ?_, List.takeWhile_append_dropWhile.symm⟩
  apply Blanks.of_isBlank
  · intro c hc
    exact List.mem_takeWhile_imp hc
  · intro hmem
    exact h ((List.takeWhile_prefix _).mem hmem)

/-! ## How tokens begin -/

theorem Quoted.head {w : List Char} {t : String} (h : Quoted w t) :
    ∃ c w', w = c :: w' ∧ (c = '"' ∨ c = '\'') := by
  cases h with
  | between hquote _ => exact ⟨_, _, rfl, hquote⟩

theorem Unquoted.head {w : List Char} (h : Unquoted w) :
    ∃ c w', w = c :: w' ∧ ' ' < c ∧ c ≠ '\'' ∧ c ∉ literalEnds := by
  obtain ⟨c, hc, hsolid, hne⟩ := h.first
  obtain ⟨w', rfl⟩ := List.head?_eq_some_iff.mp hc
  exact ⟨c, w', rfl, hsolid, hne, (h.all c List.mem_cons_self).2⟩

/-- No key begins with a blank or a closing brace. -/
theorem Key.head {w : List Char} {key : String} (h : Key w key) :
    ∃ c w', w = c :: w' ∧ ' ' < c ∧ c ≠ '\x7d' := by
  cases h with
  | quoted hq =>
    obtain ⟨c, w', rfl, hquote⟩ := hq.head
    refine ⟨c, w', rfl, ?_⟩
    rcases hquote with rfl | rfl <;> decide
  | unquoted hu =>
    obtain ⟨c, w', rfl, hsolid, -, hends⟩ := hu.head
    refine ⟨c, w', rfl, hsolid, ?_⟩
    rintro rfl
    exact hends (by decide)

/-! ## Literals -/

theorem endsBare_iff {c : Char} : endsBare c = true ↔ c < ' ' ∨ c ∈ literalEnds := by
  rw [endsBare, Bool.or_eq_true, decide_eq_true_iff, List.contains_iff_mem]
  rfl

theorem not_endsBare_iff {c : Char} : endsBare c = false ↔ ' ' ≤ c ∧ c ∉ literalEnds := by
  rw [Bool.eq_false_iff, ne_eq, endsBare_iff, not_or, Char.not_lt]

/-- Only blanks come before what can end a literal. -/
def Ends (tail : List Char) : Prop := ∀ c, (solid tail).head? = some c → c ∈ literalEnds

/-- Blanks before a character that ends a literal. -/
theorem Blanks.before_end {b : List Char} (h : Blanks b) {c : Char} (hc : c ∈ literalEnds)
    (tail : List Char) : Ends (b ++ c :: tail) ∧ solid (b ++ c :: tail) = c :: tail := by
  have hall : literalEnds.all (fun c => !isBlank c) = true := by decide
  have hblank := List.all_eq_true.mp hall c hc
  rw [Bool.not_eq_true'] at hblank
  have hsolid : solid (b ++ c :: tail) = c :: tail := by
    rw [h.solid_append, solid_cons_of_not_blank hblank]
  refine ⟨?_, hsolid⟩
  intro c' hc'
  rw [hsolid, List.head?_cons, Option.some.injEq] at hc'
  exact hc' ▸ hc

/-- What a scanner takes for a literal, before it cuts off the blanks at its end. -/
def run (r : List Char) : List Char := r.takeWhile fun c => !endsBare c

/-- What a scanner leaves after a literal. -/
def afterRun (r : List Char) : List Char := r.dropWhile fun c => !endsBare c

theorem run_append_afterRun (r : List Char) : run r ++ afterRun r = r :=
  List.takeWhile_append_dropWhile

theorem run_cons {c : Char} (h : endsBare c = false) (r : List Char) :
    run (c :: r) = c :: run r := List.takeWhile_cons_of_pos (by rw [h]; rfl)

theorem run_cons_end {c : Char} (h : endsBare c = true) (r : List Char) : run (c :: r) = [] :=
  List.takeWhile_cons_of_neg (by rw [h]; decide)

theorem run_append {w : List Char} (h : ∀ c ∈ w, endsBare c = false) (r : List Char) :
    run (w ++ r) = w ++ run r :=
  List.takeWhile_append_of_pos fun c hc => by rw [h c hc]; rfl

theorem afterRun_append {w : List Char} (h : ∀ c ∈ w, endsBare c = false) (r : List Char) :
    afterRun (w ++ r) = afterRun r :=
  List.dropWhile_append_of_pos fun c hc => by rw [h c hc]; rfl

theorem endsBare_of_mem_run {r : List Char} {c : Char} (h : c ∈ run r) : endsBare c = false := by
  rw [run] at h
  have hnot := List.mem_takeWhile_imp h
  rwa [Bool.not_eq_true'] at hnot

/-- Where only blanks come before an end, the run is blank. -/
theorem Ends.run_blank {tail : List Char} (h : Ends tail) : ∀ c ∈ run tail, isBlank c = true := by
  induction tail with
  | nil => exact fun c hc => absurd hc List.not_mem_nil
  | cons c tail ih =>
    cases hend : endsBare c with
    | true =>
      rw [run_cons_end hend]
      exact fun c hc => absurd hc List.not_mem_nil
    | false =>
      cases hblank : isBlank c with
      | true =>
        rw [Ends, solid_cons_of_blank hblank] at h
        rw [run_cons hend]
        exact List.forall_mem_cons.mpr ⟨hblank, ih h⟩
      | false =>
        rw [Ends, solid_cons_of_not_blank hblank] at h
        exact absurd (h c rfl) (not_endsBare_iff.mp hend).2

theorem Ends.solid_afterRun {tail : List Char} (h : Ends tail) :
    solid (afterRun tail) = solid tail := by
  conv => rhs; rw [← run_append_afterRun tail]
  exact (solid_append_of_blank h.run_blank _).symm

theorem trimBlanks_eq {c : Char} (h : isBlank c = false) (w : List Char) :
    trimBlanks (c :: w) = (c :: w).rdropWhile isBlank := by
  rw [trimBlanks, List.dropWhile_cons_of_neg (by rw [h]; decide)]
  rfl

theorem rdropWhile_append_of_blank {w b : List Char} (h : ∀ c ∈ b, isBlank c = true) :
    (w ++ b).rdropWhile isBlank = w.rdropWhile isBlank := by
  rw [List.rdropWhile, List.reverse_append,
    List.dropWhile_append_of_pos fun c hc => h c (List.mem_reverse.mp hc)]
  rfl

/-- A literal stands where a scanner finds it. -/
theorem unquoted_of_trim {r : List Char} {c : Char} (hhead : r.head? = some c)
    (hblank : isBlank c = false) (hquote : c ≠ '\'') (hne : trimBlanks (run r) ≠ []) :
    Unquoted (trimBlanks (run r)) ∧
      ∃ tail, r = trimBlanks (run r) ++ tail ∧ solid (afterRun r) = solid tail := by
  obtain ⟨r', rfl⟩ := List.head?_eq_some_iff.mp hhead
  have hend : endsBare c = false := by
    apply Bool.eq_false_iff.mpr
    intro h
    rw [run_cons_end h] at hne
    exact hne rfl
  have htrim : trimBlanks (run (c :: r')) = (run (c :: r')).rdropWhile isBlank := by
    rw [run_cons hend, trimBlanks_eq hblank]
  rw [htrim] at hne ⊢
  have hsplit := @List.rdropWhile_append_rtakeWhile _ isBlank (run (c :: r'))
  refine ⟨⟨?_, ?_, ?_⟩, (run (c :: r')).rtakeWhile isBlank ++ afterRun (c :: r'), ?_, ?_⟩
  · refine ⟨c, ?_, not_blank_iff.mp hblank, hquote⟩
    rw [run_cons hend] at hne ⊢
    obtain ⟨d, w, hw⟩ := List.exists_cons_of_ne_nil hne
    have hprefix := List.rdropWhile_prefix isBlank (c :: run r')
    rw [hw] at hprefix ⊢
    rw [(List.cons_prefix_cons.mp hprefix).1]
    rfl
  · refine ⟨_, List.getLast?_eq_some_getLast hne, not_blank_iff.mp ?_⟩
    exact Bool.eq_false_iff.mpr (List.rdropWhile_last_not isBlank _ hne)
  · intro d hd
    exact not_endsBare_iff.mp (endsBare_of_mem_run ((List.rdropWhile_prefix isBlank _).mem hd))
  · rw [← List.append_assoc, hsplit, run_append_afterRun]
  · rw [solid_append_of_blank fun d hd => List.mem_rtakeWhile_imp hd]

/-- A scanner finds a literal where it stands. -/
theorem trim_of_unquoted {w tail : List Char} (hw : Unquoted w) (htail : Ends tail) :
    trimBlanks (run (w ++ tail)) = w ∧ solid (afterRun (w ++ tail)) = solid tail := by
  have hall : ∀ c ∈ w, endsBare c = false := by
    intro c hc
    exact not_endsBare_iff.mpr (hw.all c hc)
  rw [run_append hall, afterRun_append hall]
  refine ⟨?_, htail.solid_afterRun⟩
  obtain ⟨c, w', rfl, hsolid, -⟩ := hw.head
  rw [List.cons_append, trimBlanks_eq (not_blank_iff.mpr hsolid), ← List.cons_append,
    rdropWhile_append_of_blank htail.run_blank, List.rdropWhile_eq_self_iff]
  intro hne hblank
  obtain ⟨e, he, hlast⟩ := hw.last
  rw [List.getLast?_eq_some_getLast hne, Option.some.injEq] at he
  rw [he, not_blank_iff.mpr hlast] at hblank
  cases hblank

end Grammar
end LaxJson
