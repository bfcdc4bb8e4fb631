import LaxJson.Proofs.Document.Depth
import LaxJson.Proofs.Scanner.Advance
import LaxJson.Proofs.Scanner.Rounds

/-!
# LaxJson.Proofs.Document.Halting

Parsing ends because there is less and less to read, whatever the depth limit is.

* `index_inside`: a value inside a container starts past the bracket that opens the container.
* `run_halting`: from every scanner that a run over a text leads to, every request and every document
  is done after a number of rounds that only depends on what is left to read.
-/

namespace LaxJson
namespace Scanner

open Reading

section Containers

variable {σ : Type}

/-- The scanner of a call that reads a value. -/
def valueStart? : Reading σ → Option (Scanner σ)
  | .value s => some s
  | .object _ => none
  | .array _ => none
  | .members _ _ => none
  | .items _ _ => none

theorem eq_value_of_start {r : Reading σ} {t : Scanner σ} (h : valueStart? r = some t) :
    r = .value t := by
  cases r with
  | value s =>
    cases h
    rfl
  | object s | array s | members ms s | items before s => cases h

theorem position_of_opening {r : Reading σ} {x : Opening} (h : r.opening? = some x) :
    x.position = r.scanner.position := by
  cases r with
  | object s | array s =>
    simp only [opening?] at h
    split at h <;> cases h
    rfl
  | value s | members ms s | items before s => cases h

variable [CharSource σ] [FiniteSource σ]

/-- Where the values start that are read in a call and the calls below it, in order. -/
def valueStarts (r : Reading σ) : List (Scanner σ) := r.readings.filterMap valueStart?

/-- What a container calls starts past its opening bracket. -/
theorem index_lt_of_call {r r' : Reading σ} {x : Opening} (h : Call r r')
    (hx : r.opening? = some x) : r.scanner.cursor.index < r'.scanner.cursor.index := by
  cases h with
  | @members s _ _ ho => exact index_opening (s := s.enter) ho
  | @items s _ _ _ ho hc => exact (index_opening (s := s.enter) ho).trans_le (index_closes hc)
  | object | array | member | moreMembers | slot | moreSlots | moreEmptySlots => cases hx

/-- A value that is read inside a container starts past the bracket that opens the container. -/
theorem index_inside {r : Reading σ} {x : Opening} {t : Scanner σ} (hx : r.opening? = some x)
    (ht : t ∈ valueStarts r) : x.position.index < t.position.index := by
  obtain ⟨call, ht, hstart⟩ := List.mem_filterMap.mp ht
  obtain rfl := eq_value_of_start hstart
  rw [readings_eq, List.mem_cons, List.mem_flatMap] at ht
  rcases ht with rfl | ⟨inner, hinner, ht⟩
  · cases hx
  have hlt : r.scanner.cursor.index < inner.scanner.cursor.index :=
    index_lt_of_call (call_of_mem hinner) hx
  have hle : inner.scanner.cursor.index ≤ t.cursor.index :=
    forall_readings (P := fun r => inner.scanner.cursor.index ≤ r.scanner.cursor.index)
      (fun hr hcall => hr.trans (index_le_of_call hcall)) (Nat.le_refl _) _ ht
  rw [position_of_opening hx]
  exact hlt.trans_le hle

end Containers

/-- **Parsing always ends, because there is less and less to read.** Take the scanner that any
requests over a text lead to, and any operations in the place of those that call themselves or each
other. Once these are unfolded a few times for everything that is left to read, every request and
every document comes out as it does for the scanner, and they are never called: neither the depth
limit nor any other option comes into it. A value that is read moves the index on. And a value that
is read inside a container starts with fewer characters left than the container had when it was
opened. -/
theorem run_halting (text : String) (o : Options) (requests : List Request) :
    let s := ((ofText text o).run requests).2
    (∀ (standIn : Routines TextSource) (n : Nat), 3 * s.unread + 2 < n →
      (∀ request, (Routines.unfold^[n] standIn).perform s request = s.perform request) ∧
        (Routines.unfold^[n] standIn).document s = s.document) ∧
      (∀ v s', s.value = (.ok v, s') → s.position.index < s'.position.index) ∧
      ∀ r ∈ (Reading.value s).readings, ∀ x, r.opening? = some x → ∀ t ∈ valueStarts r,
        text.toList.length - t.position.index < text.toList.length - x.position.index := by
  intro s
  have htracks : Tracks text s := (tracking text).run requests (ofText_tracks text o)
  refine ⟨?_, ?_, ?_⟩
  · intro standIn n hn
    have hagree := Routines.agree_iterate standIn n
    exact ⟨hagree.perform hn (Nat.le_refl _), hagree.document hn⟩
  · intro v s' hv
    exact index_value hv
  · intro r hr x hx t ht
    obtain ⟨hbracket, -⟩ := htracks.opening_placed (List.mem_filterMap.mpr ⟨r, hr, hx⟩)
    have hlt := (List.getElem?_eq_some_iff.mp hbracket).1
    have := index_inside hx ht
    omega

/-- An array with a slot, under the highest limit there is, after its bracket was put back. -/
theorem run_halting_array :
    let text := "[1]"
    let o : Options := { maxDepth := 2 ^ 64 - 1 }
    let s := ((ofText text o).run [.next, .stepBack]).2
    (∀ standIn : Routines TextSource, (Routines.unfold^[12] standIn).document s = s.document) ∧
      (∃ v s', s.value = (.ok v, s') ∧ s.position.index < s'.position.index) ∧
      ∃ r ∈ (Reading.value s).readings, ∃ x, r.opening? = some x ∧ ∃ t ∈ valueStarts r,
        text.toList.length - t.position.index < text.toList.length - x.position.index := by
  intro text o s
  obtain ⟨hrounds, hindex, hinside⟩ := run_halting text o [.next, .stepBack]
  refine ⟨?_, ?_, ?_⟩
  · intro standIn
    exact (hrounds standIn 12 (by decide)).2
  · have hok : failure? s.value.1 = none := by decide +kernel
    rcases hv : s.value with ⟨e | v, s'⟩
    · rw [hv] at hok
      cases hok
    · exact ⟨v, s', rfl, hindex v s' hv⟩
  · have hany : ((Reading.value s).readings.any fun r =>
        r.opening?.isSome && !(valueStarts r).isEmpty) = true := by decide +kernel
    obtain ⟨r, hr, hcalls⟩ := List.any_eq_true.mp hany
    obtain ⟨hopening, hvalues⟩ := Bool.and_eq_true_iff.mp hcalls
    obtain ⟨x, hx⟩ := Option.isSome_iff_exists.mp hopening
    obtain ⟨t, ht⟩ := List.isEmpty_eq_false_iff_exists_mem.mp (by simpa using hvalues)
    exact ⟨r, hr, x, hx, t, ht, hinside r hr x hx t ht⟩

end Scanner

end LaxJson
