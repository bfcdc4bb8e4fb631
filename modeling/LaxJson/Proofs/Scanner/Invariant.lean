import LaxJson.Proofs.Scanner.Calls
import LaxJson.Proofs.Scanner.Correspondence

/-!
# LaxJson.Proofs.Scanner.Invariant

Invariants of a scanner: what reading a character, putting it back and searching ahead keep, every
request keeps, and so does every run of requests. An invariant is a correspondence of a scanner with
itself, which is how the other operations come to keep it.

* `Lasting.invariant`: what advancing and stepping back keep of a cursor, a scanner keeps. A search
  goes back to a cursor that it has had.
* `invariant_source`: what no request to a source changes, no request to a scanner over it changes.
-/

namespace LaxJson
namespace Scanner

variable {σ : Type} [CharSource σ] [FiniteSource σ]

/-- A property that the steps of every operation keep, whether they succeed or fail. -/
structure Invariant (P : Scanner σ → Prop) : Prop where
  atDepth : ∀ {s} (d : Nat), P s → P { s with depth := d }
  next : ∀ {s}, P s → P s.next.2
  stepBack : ∀ {s}, P s → P s.stepBack.2
  seek : ∀ {s}, P s → ∀ target, P (s.seek target).2

namespace Invariant

variable {P : Scanner σ → Prop}

/-- A scanner with the property corresponds to itself. -/
theorem correspondence (h : Invariant P) :
    Correspondence (fun s t : Scanner σ => s = t ∧ P s) where
  position := by rintro s t ⟨rfl, -⟩; rfl
  atEnd := by rintro s t ⟨rfl, -⟩; rfl
  options := by rintro s t ⟨rfl, -⟩; rfl
  depth := by rintro s t ⟨rfl, -⟩; rfl
  previous := by rintro s t ⟨rfl, -⟩; rfl
  atDepth := by rintro s t d ⟨rfl, hs⟩; exact ⟨rfl, h.atDepth d hs⟩
  next := by rintro s t ⟨rfl, hs⟩; exact ⟨rfl, rfl, h.next hs⟩
  stepBack := by rintro s t ⟨rfl, hs⟩; exact ⟨rfl, rfl, h.stepBack hs⟩
  seek := by rintro s t ⟨rfl, hs⟩ target; exact ⟨rfl, rfl, h.seek hs target⟩

theorem perform (h : Invariant P) {s : Scanner σ} (hs : P s) (request : Request) :
    P (s.perform request).2 :=
  (h.correspondence.perform ⟨rfl, hs⟩ request).2.2

theorem run (h : Invariant P) (requests : List Request) {s : Scanner σ} (hs : P s) :
    P (s.run requests).2 :=
  (h.correspondence.run requests ⟨rfl, hs⟩).2.2

/-- What the scanner of a call has, the scanners of the calls that it makes have. -/
theorem call (h : Invariant P) {r r' : Reading σ} (hcall : r.Call r') (hr : P r.scanner) :
    P r'.scanner := by
  have hc := h.correspondence
  suffices hboth : r'.scanner = r'.scanner ∧ P r'.scanner from hboth.2
  cases hcall with
  | object hn hb => exact (hc.stepBack ((hc.nextSolid ⟨rfl, hr⟩).self hn)).self hb
  | array hn hb => exact (hc.stepBack ((hc.nextSolid ⟨rfl, hr⟩).self hn)).self hb
  | members _ ho => exact (hc.opening (hc.enter ⟨rfl, hr⟩) .object).self ho
  | items _ ho hclose =>
    exact (hc.closes ((hc.opening (hc.enter ⟨rfl, hr⟩) .array).self ho) .array).self hclose
  | member hk hcolon => exact (hc.colon ((hc.nextKey ⟨rfl, hr⟩).self hk)).self hcolon
  | moreMembers hk hcolon hv hs =>
    have hs2 := (hc.colon ((hc.nextKey ⟨rfl, hr⟩).self hk)).self hcolon
    exact (hc.separator ((hc.value hs2).self hv) .object).self hs
  | slot he => exact (hc.emptySlot ⟨rfl, hr⟩).self he
  | moreSlots he hv hs =>
    have hs1 := (hc.emptySlot ⟨rfl, hr⟩).self he
    exact (hc.separator ((hc.value hs1).self hv) .array).self hs
  | moreEmptySlots he hs => exact (hc.separator ((hc.emptySlot ⟨rfl, hr⟩).self he) .array).self hs

end Invariant

/-! ## Cursors -/

/-- A property that a cursor keeps when it advances, and when it steps back where it can. -/
structure Lasting (P : Cursor → Prop) : Prop where
  advance : ∀ {k : Cursor} (c : Char), P k → P (k.advance c)
  stepBack : ∀ {k : Cursor}, k.pending = none → k.index ≠ 0 → P k → P k.stepBack

namespace Lasting

variable {P : Cursor → Prop} {s : Scanner σ}

omit [FiniteSource σ] in
theorem next (h : Lasting P) (hs : P s.cursor) : P s.next.2.cursor := by
  rcases hn : s.next with ⟨e | c, s'⟩
  · rw [(next_error hn).2]
    exact hs
  · rw [next_ok hn]
    exact h.advance c hs

omit [CharSource σ] [FiniteSource σ] in
theorem putBack (h : Lasting P) (hs : P s.cursor) : P s.stepBack.2.cursor := by
  rcases hb : s.stepBack with ⟨e | _, s'⟩
  · rwa [(stepBack_error hb).2]
  · obtain ⟨⟨hpending, hindex⟩, rfl⟩ := stepBack_ok hb
    exact h.stepBack hpending hindex hs

theorem seekFrom (h : Lasting P) {target : Char} {origin : Cursor} (horigin : P origin)
    (hs : P s.cursor) : P (Scanner.seekFrom target origin s).2.cursor := by
  refine seekFrom_rule (P := fun s => P s.cursor) (Q := fun r => P r.2.cursor)
    (fun s hs => h.next hs) (fun s e hs => hs) (fun s e source hs _ => hs)
    (fun s source _ _ => horigin) (fun s hs hhanded => ?_) hs
  exact h.stepBack hhanded.pending hhanded.index hs

/-- The cursor of a scanner keeps the property over any source, whatever is requested. -/
theorem invariant (h : Lasting P) : Invariant fun s : Scanner σ => P s.cursor where
  atDepth _ hs := hs
  next hs := h.next hs
  stepBack hs := h.putBack hs
  seek := by
    intro s hs target
    unfold Scanner.seek
    split
    · exact hs
    · exact h.seekFrom hs hs

end Lasting

/-! ## Sources -/

section Sources

variable {P : σ → Prop}

omit [FiniteSource σ] in
theorem source_next (hP : ∀ s r, P s → P (CharSource.perform s r).2) {s : Scanner σ}
    (hs : P s.source) : P s.next.2.source := by
  rcases source_of_next s with hsame | hread
  · rwa [hsame]
  · rw [hread, ← CharSource.perform_read]
    exact hP s.source .read hs

theorem source_seekFrom (hP : ∀ s r, P s → P (CharSource.perform s r).2) {target : Char}
    {origin : Cursor} {s : Scanner σ} (hs : P s.source) :
    P (seekFrom target origin s).2.source := by
  have hreset : ∀ s, P s → P (CharSource.reset s).2 := by
    intro s hs
    rw [← CharSource.perform_reset]
    exact hP s .reset hs
  refine seekFrom_rule (P := fun s => P s.source) (Q := fun r => P r.2.source)
    (fun s hs => source_next hP hs) (fun s e hs => hs) (fun s e source hs hr => ?_)
    (fun s source hs hr => ?_) (fun s hs _ => hP _ .unmark hs) hs
  · have hsource := hreset s.source hs
    rwa [hr] at hsource
  · have hsource := hreset s.source hs
    rw [hr] at hsource
    exact hP _ .unmark hsource

/-- A scanner only makes requests to its source. -/
theorem invariant_source (hP : ∀ s r, P s → P (CharSource.perform s r).2) :
    Invariant fun s : Scanner σ => P s.source where
  atDepth _ hs := hs
  next hs := source_next hP hs
  stepBack := by
    intro s hs
    rw [stepBack_snd]
    exact hs
  seek := by
    intro s hs target
    have hmark := hP s.source (.mark seekLimit) hs
    unfold seek
    split <;> rename_i hm <;> rw [CharSource.perform_mark, hm] at hmark
    · exact hmark
    · exact source_seekFrom hP hmark

end Sources

end Scanner

end LaxJson
