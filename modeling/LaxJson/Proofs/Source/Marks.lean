import LaxJson.Proofs.Source.Yields
import LaxJson.Source.Text

/-!
# LaxJson.Proofs.Source.Marks

What a mark of a source promises. `Markable` lists the laws: a mark can be set, reads do not depend
on it, and as long as it is kept a reset brings back every character read since. A text keeps a mark
for good, a recorder for as many characters as the mark allows.
-/

namespace LaxJson

open CharSource (Yields yields_of_step)

/-- The laws of a source whose marks are set with `limit`. `Since s ps` says that a mark is set and
that `ps` was read after it, `kept n` that a mark lasts for `n` characters. -/
structure Markable (σ : Type) [CharSource σ] (limit : Nat) where
  Since : σ → List Char → Prop
  kept : Nat → Prop
  mark_ok : ∀ s : σ, (CharSource.mark s limit).1 = .ok ()
  since_mark : ∀ s : σ, Since (CharSource.mark s limit).2 []
  since_read : ∀ {s s' : σ} {ps : List Char} {answer : Option Char}, Since s ps →
    CharSource.read s = (.ok answer, s') → Since s' (ps ++ answer.toList)
  reset_kept : ∀ {s : σ} {ps cs : List Char}, Since s ps → Yields s cs → kept ps.length →
    (CharSource.reset s).1 = .ok () ∧ Yields (CharSource.reset s).2 (ps ++ cs)
  reset_lost : ∀ {s : σ} {ps cs : List Char}, Since s ps → Yields s cs → ¬ kept ps.length →
    (CharSource.reset s).1 = .error .markInvalid ∧ Yields (CharSource.reset s).2 cs
  read_unmark : ∀ s : σ, CharSource.read (CharSource.unmark s) =
    ((CharSource.read s).1, CharSource.unmark (CharSource.read s).2)
  unmark_mark : ∀ s : σ, CharSource.unmark (CharSource.mark s limit).2 = CharSource.unmark s

namespace Markable

variable {σ : Type} [CharSource σ] {limit : Nat}

/-- Releasing the mark leaves the characters to come. -/
theorem yields_unmark (m : Markable σ limit) {s : σ} {cs : List Char} (h : Yields s cs) :
    Yields (CharSource.unmark s) cs := by
  apply yields_of_step (R := fun s cs => ∃ t, s = CharSource.unmark t ∧ Yields t cs)
  · rintro _ cs ⟨t, rfl, ht⟩
    rw [m.read_unmark]
    exact ⟨ht.head, _, rfl, ht.tail⟩
  · exact ⟨s, rfl, h⟩

theorem yields_of_unmark (m : Markable σ limit) {s : σ} {cs : List Char}
    (h : Yields (CharSource.unmark s) cs) : Yields s cs := by
  apply yields_of_step (R := fun s cs => Yields (CharSource.unmark s) cs)
  · intro t cs ht
    have hhead := ht.head
    have htail := ht.tail
    rw [m.read_unmark] at hhead htail
    exact ⟨hhead, htail⟩
  · exact h

theorem yields_mark (m : Markable σ limit) {s : σ} {cs : List Char} (h : Yields s cs) :
    Yields (CharSource.mark s limit).2 cs := by
  apply m.yields_of_unmark
  rw [m.unmark_mark]
  exact m.yields_unmark h

end Markable

/-! ## Texts -/

namespace TextSource

theorem read_marked (s : TextSource) (mark : Option String.Pos.Raw) :
    read { s with marked := mark } = (s.read.1, { s.read.2 with marked := mark }) := by
  simp only [read]
  split <;> rfl

theorem marked_read {s s' : TextSource} {answer : Option Char} (h : s.read = (.ok answer, s')) :
    s'.text = s.text ∧ s'.marked = s.marked := by
  simp only [read] at h
  split at h <;> cases h <;> exact ⟨rfl, rfl⟩

theorem marked_snd (s : TextSource) : s.read.2.marked = s.marked := by
  simp only [read]
  split <;> rfl

/-- The mark of a text is set, and reading from it on comes to where the source stands by `ps`. -/
def Since (s : TextSource) (ps : List Char) : Prop :=
  ∃ offset, s.marked = some offset ∧
    ∀ cs, Yields s cs → Yields { s with offset := offset } (ps ++ cs)

theorem since_read {s s' : TextSource} {ps : List Char} {answer : Option Char} (h : Since s ps)
    (hr : s.read = (.ok answer, s')) : Since s' (ps ++ answer.toList) := by
  obtain ⟨offset, hmarked, hyields⟩ := h
  obtain ⟨htext, hmarked'⟩ := marked_read hr
  refine ⟨offset, hmarked'.trans hmarked, ?_⟩
  intro cs hcs
  have hback : { s' with offset := offset } = { s with offset := offset } := by
    rw [htext, hmarked']
  rw [hback, List.append_assoc]
  apply hyields
  cases answer with
  | none =>
    rw [read_none hr] at hcs
    exact hcs
  | some c =>
    apply Yields.cons
    · exact congrArg Prod.fst hr
    · rw [show (CharSource.read s).2 = s' from congrArg Prod.snd hr]
      exact hcs

/-- A text keeps its mark whatever is read. -/
def markable (limit : Nat) : Markable TextSource limit where
  Since := Since
  kept _ := True
  mark_ok _ := rfl
  since_mark s := by
    refine ⟨s.offset, rfl, ?_⟩
    intro cs hcs
    exact hcs
  since_read := since_read
  reset_kept := by
    rintro s ps cs ⟨offset, hmarked, hyields⟩ hcs -
    have hreset : CharSource.reset s = (.ok (), { s with offset := offset }) := by
      simp only [CharSource.reset, reset, hmarked]
    rw [hreset]
    exact ⟨rfl, hyields cs hcs⟩
  reset_lost := by
    intro s ps cs _ _ hlost
    exact absurd trivial hlost
  read_unmark s := read_marked s none
  unmark_mark _ := rfl

end TextSource

/-! ## Recorders -/

namespace Recorder

variable {σ : Type}

/-- The recording holds what was read since the mark, or there was no room for it. -/
def Since (limit : Nat) (s : Recorder σ) (ps : List Char) : Prop :=
  match s.mark with
  | .unmarked => False
  | .recording room seen => seen.reverse = ps ∧ seen.length + room = limit
  | .invalidated => limit < ps.length

theorem since_record {limit : Nat} {inner inner' : σ} {replay replay' ps : List Char} {m : Mark}
    (h : Since limit (⟨inner, replay, m⟩ : Recorder σ) ps) (c : Char) :
    Since limit (⟨inner', replay', m.record c⟩ : Recorder σ) (ps ++ [c]) := by
  cases m with
  | unmarked => exact h
  | recording room seen =>
    obtain ⟨rfl, hroom⟩ := h
    cases room with
    | zero =>
      simp only [Since, Mark.record, List.length_append, List.length_reverse, List.length_singleton]
      omega
    | succ room =>
      refine ⟨List.reverse_cons, ?_⟩
      simp only [List.length_cons]
      omega
  | invalidated =>
    simp only [Since, Mark.record, List.length_append, List.length_singleton] at h ⊢
    omega

variable [CharSource σ]

theorem since_read {limit : Nat} {s s' : Recorder σ} {ps : List Char} {answer : Option Char}
    (h : Since limit s ps) (hr : s.read = (.ok answer, s')) :
    Since limit s' (ps ++ answer.toList) := by
  obtain ⟨inner, _ | ⟨c, rest⟩, m⟩ := s
  · simp only [read] at hr
    split at hr
    · cases hr
    · cases hr
      rw [Option.toList_none, List.append_nil]
      exact h
    · cases hr
      exact since_record h _
  · cases hr
    exact since_record h _

/-- A read that fails brings nothing to record. -/
theorem since_read_error {limit : Nat} {s s' : Recorder σ} {ps : List Char} {e : SourceError}
    (h : Since limit s ps) (hr : s.read = (.error e, s')) : Since limit s' ps := by
  obtain ⟨inner, _ | ⟨c, rest⟩, m⟩ := s
  · simp only [read] at hr
    split at hr <;> cases hr
    exact h
  · cases hr

/-- A recorder keeps a mark for as many characters as the mark allows. -/
def markable (limit : Nat) : Markable (Recorder σ) limit where
  Since := Since limit
  kept n := n ≤ limit
  mark_ok _ := rfl
  since_mark _ := ⟨rfl, Nat.zero_add limit⟩
  since_read := since_read
  reset_kept := by
    rintro ⟨inner, replay, m⟩ ps cs hsince hcs hkept
    cases m with
    | unmarked => exact hsince.elim
    | recording room seen =>
      obtain ⟨rfl, -⟩ := hsince
      exact ⟨rfl, yields_queued seen.reverse hcs _⟩
    | invalidated => exact absurd hkept (Nat.not_le.mpr hsince)
  reset_lost := by
    rintro ⟨inner, replay, m⟩ ps cs hsince hcs hlost
    cases m with
    | unmarked => exact hsince.elim
    | recording room seen =>
      obtain ⟨rfl, hroom⟩ := hsince
      rw [List.length_reverse] at hlost
      omega
    | invalidated => exact ⟨rfl, hcs⟩
  read_unmark := by
    rintro ⟨inner, _ | ⟨c, rest⟩, m⟩
    · simp only [CharSource.read, CharSource.unmark, read]
      rcases CharSource.read inner with ⟨_ | _ | c, inner'⟩ <;> rfl
    · rfl
  unmark_mark _ := rfl

end Recorder

end LaxJson
