import LaxJson.Proofs.Source.Bytes
import LaxJson.Proofs.Source.Text
import LaxJson.Source.Chars
import LaxJson.Source.Recorder
import Mathlib.Data.List.Basic

/-!
# LaxJson.Proofs.Source.Yields

What a source hands out, seen from its reads alone.

* `Yields`: the reads answer these characters one by one, and after them the end for good.
* `Gives`: the reads answer these characters and then the end, which need not be for good.
* `Steady`: no read fails and the end, once answered, is answered again.
* `Steady.exists_yields`: a steady source with finitely many characters yields some list of them.
* `TextSource.yields_place`, `ByteSource.yields_ahead`: a text yields its characters from its offset
  on, and bytes yield the characters that they decode to.
* `Recorder.yields_queued`: what a recorder has queued comes before what it would hand out without,
  and its mark does not matter.
-/

namespace LaxJson
namespace CharSource

variable {σ : Type} [CharSource σ]

/-- The source after so many reads, whatever they answer. -/
def afterReads (s : σ) : Nat → σ
  | 0 => s
  | n + 1 => afterReads (read s).2 n

/-- The reads answer `cs`, one character each, and from then on the end. -/
def Yields (s : σ) (cs : List Char) : Prop := ∀ n, (read (afterReads s n)).1 = .ok cs[n]?

/-- The reads answer the characters, one each, and then the end. -/
def Gives : List Char → σ → Prop
  | [], s => (read s).1 = .ok none
  | c :: cs, s => (read s).1 = .ok (some c) ∧ Gives cs (read s).2

/-- A source that never fails and whose end is permanent. -/
structure Steady (s : σ) : Prop where
  answers : ∀ n, ∃ answer, (read (afterReads s n)).1 = .ok answer
  ended : ∀ n, (read (afterReads s n)).1 = .ok none → (read (afterReads s (n + 1))).1 = .ok none

theorem Yields.head {s : σ} {cs : List Char} (h : Yields s cs) : (read s).1 = .ok cs.head? := by
  rw [List.head?_eq_getElem?]
  exact h 0

theorem Yields.tail {s : σ} {cs : List Char} (h : Yields s cs) : Yields (read s).2 cs.tail := by
  intro n
  rw [List.getElem?_tail]
  exact h (n + 1)

theorem Yields.cons {s : σ} {c : Char} {cs : List Char} (hc : (read s).1 = .ok (some c))
    (h : Yields (read s).2 cs) : Yields s (c :: cs) := by
  intro n
  cases n with
  | zero => exact hc
  | succ n => exact h n

theorem Yields.gives {s : σ} {cs : List Char} (h : Yields s cs) : Gives cs s := by
  induction cs generalizing s with
  | nil => exact h.head
  | cons c cs ih => exact ⟨h.head, ih h.tail⟩

theorem Yields.unique {s : σ} {cs cs' : List Char} (h : Yields s cs) (h' : Yields s cs') :
    cs = cs' := by
  apply List.ext_getElem?
  intro n
  exact Except.ok.inj ((h n).symm.trans (h' n))

/-- A relation that answers each read by the head of the list, and goes on with its tail. -/
theorem yields_of_step {R : σ → List Char → Prop}
    (hstep : ∀ {s cs}, R s cs → (read s).1 = .ok cs.head? ∧ R (read s).2 cs.tail)
    {s : σ} {cs : List Char} (h : R s cs) : Yields s cs := by
  intro n
  induction n generalizing s cs with
  | zero =>
    rw [← List.head?_eq_getElem?]
    exact (hstep h).1
  | succ n ih =>
    rw [← List.getElem?_tail]
    exact ih (hstep h).2

theorem Steady.tail {s : σ} (h : Steady s) : Steady (read s).2 :=
  ⟨fun n => h.answers (n + 1), fun n => h.ended (n + 1)⟩

theorem Steady.yields_nil {s : σ} (h : Steady s) (hend : (read s).1 = .ok none) : Yields s [] := by
  intro n
  induction n with
  | zero => exact hend
  | succ n ih => exact h.ended n ih

/-- A source that never fails and stays at its end hands out some list of characters. -/
theorem Steady.exists_yields [FiniteSource σ] {s : σ} (h : Steady s) : ∃ cs, Yields s cs := by
  induction hn : FiniteSource.size s using Nat.strongRecOn generalizing s with
  | ind n ih =>
    subst hn
    obtain ⟨answer, hanswer⟩ := h.answers 0
    cases answer with
    | none => exact ⟨[], h.yields_nil hanswer⟩
    | some c =>
      have hread : read s = (.ok (some c), (read s).2) := Prod.ext hanswer rfl
      obtain ⟨cs, hcs⟩ := ih _ (FiniteSource.size_read_some hread) h.tail rfl
      exact ⟨c :: cs, hcs.cons hanswer⟩

/-- Conversely, what yields a list of characters does not fail and stays at its end. -/
theorem Yields.steady {s : σ} {cs : List Char} (h : Yields s cs) : Steady s := by
  constructor
  · intro n
    exact ⟨cs[n]?, h n⟩
  · intro n hend
    rw [h n, Except.ok.injEq, List.getElem?_eq_none_iff] at hend
    rw [h (n + 1), List.getElem?_eq_none (Nat.le_succ_of_le hend)]

end CharSource

theorem CharsSource.yields (s : CharsSource) : CharSource.Yields s s.chars := by
  apply CharSource.yields_of_step (R := fun s cs => s.chars = cs)
  · rintro s cs rfl
    have hread : CharSource.read s = (.ok s.chars.head?, ⟨s.chars.tail⟩) := s.read_eq
    rw [hread]
    exact ⟨rfl, rfl⟩
  · rfl

theorem TextSource.yields_place {s : TextSource} {n : Nat} (h : s.offset = place s.text n) :
    CharSource.Yields s (s.text.toList.drop n) := by
  apply CharSource.yields_of_step
    (R := fun s cs => ∃ n, s.offset = place s.text n ∧ cs = s.text.toList.drop n)
  · rintro s cs ⟨n, hoffset, rfl⟩
    have hread : CharSource.read s =
        (.ok s.text.toList[n]?, { s with offset := place s.text (n + 1) }) := read_place hoffset
    rw [hread, List.head?_drop, List.tail_drop]
    exact ⟨rfl, n + 1, rfl, rfl⟩
  · exact ⟨n, h, rfl⟩

theorem TextSource.yields_ofText (text : String) :
    CharSource.Yields (ofText text) text.toList :=
  yields_place (s := .ofText text) (n := 0) (place_zero text).symm

theorem ByteSource.yields_ahead {s : ByteSource} (h : s.failuresAhead = []) :
    CharSource.Yields s (Utf8.decodeLossy s.ahead) := by
  apply CharSource.yields_of_step
    (R := fun s cs => s.failuresAhead = [] ∧ cs = Utf8.decodeLossy s.ahead)
  · rintro s cs ⟨hfailures, rfl⟩
    rcases hr : CharSource.read s with ⟨e | c, s'⟩
    · obtain ⟨-, hfirst⟩ := read_error hr
      rw [hfailures] at hfirst
      cases hfirst
    · obtain ⟨hc, htail, hrest⟩ := read_ok hr
      exact ⟨congrArg Except.ok hc, hrest.trans hfailures, htail.symm⟩
  · exact ⟨h, rfl⟩

theorem ByteSource.yields_ofDeliveries {ds : List Delivery} (h : Delivery.failures ds = []) :
    CharSource.Yields (ofDeliveries ds) (Utf8.decodeLossy (Delivery.delivered ds)) := by
  rw [← ahead_ofDeliveries]
  exact yields_ahead ((failuresAhead_ofDeliveries ds).trans h)

namespace Recorder

open CharSource (Yields yields_of_step)

variable {σ : Type} [CharSource σ]

/-- Under another mark a read answers the same and leaves the same characters. -/
theorem read_mark (inner : σ) (replay : List Char) (m m' : Mark) :
    (CharSource.read (⟨inner, replay, m⟩ : Recorder σ)).1 =
        (CharSource.read (⟨inner, replay, m'⟩ : Recorder σ)).1 ∧
      ∃ m₁, (CharSource.read (⟨inner, replay, m⟩ : Recorder σ)).2 =
        { (CharSource.read (⟨inner, replay, m'⟩ : Recorder σ)).2 with mark := m₁ } := by
  cases replay with
  | cons c rest => exact ⟨rfl, m.record c, rfl⟩
  | nil =>
    simp only [CharSource.read, read]
    rcases CharSource.read inner with ⟨_ | _ | c, inner'⟩
    · exact ⟨rfl, m, rfl⟩
    · exact ⟨rfl, m, rfl⟩
    · exact ⟨rfl, m.record c, rfl⟩

theorem yields_mark {s : Recorder σ} {cs : List Char} (h : Yields s cs) (m : Mark) :
    Yields { s with mark := m } cs := by
  apply yields_of_step (R := fun s cs => ∃ m, Yields { s with mark := m } cs)
  · rintro ⟨inner, replay, m'⟩ cs ⟨m, h⟩
    obtain ⟨hanswer, m₁, hrest⟩ := read_mark inner replay m m'
    refine ⟨hanswer.symm.trans h.head, m₁, ?_⟩
    rw [← hrest]
    exact h.tail
  · exact ⟨s.mark, h⟩

/-- Characters put in front of the queue are handed out first. -/
theorem yields_queued {inner : σ} {replay cs : List Char} {m : Mark} (ps : List Char)
    (h : Yields (⟨inner, replay, m⟩ : Recorder σ) cs) (m' : Mark) :
    Yields (⟨inner, ps ++ replay, m'⟩ : Recorder σ) (ps ++ cs) := by
  induction ps generalizing m' with
  | nil => exact yields_mark h m'
  | cons p ps ih => exact .cons rfl (ih (m'.record p))

theorem yields_ofSource {inner : σ} {cs : List Char} (h : Yields inner cs) :
    Yields (ofSource inner) cs := by
  apply yields_of_step (R := fun r cs => r.replay = [] ∧ Yields r.inner cs)
  · rintro ⟨inner, _, m⟩ cs ⟨rfl, h⟩
    have hread : CharSource.read inner = (.ok cs.head?, (CharSource.read inner).2) :=
      Prod.ext h.head rfl
    simp only [CharSource.read, read]
    rw [hread]
    cases cs with
    | nil => exact ⟨rfl, rfl, h.tail⟩
    | cons c cs => exact ⟨rfl, rfl, h.tail⟩
  · exact ⟨rfl, h⟩

/-- A recorder hands out its queue and then what its source hands out, marked or not. -/
theorem yields_of_inner (r : Recorder σ) {cs : List Char} (h : Yields r.inner cs) :
    Yields r (r.replay ++ cs) := by
  have hqueued := yields_queued r.replay (yields_ofSource h) r.mark
  rw [List.append_nil] at hqueued
  exact hqueued

end Recorder

end LaxJson
