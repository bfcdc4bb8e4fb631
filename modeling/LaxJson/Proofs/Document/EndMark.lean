import LaxJson.Proofs.Document.Sources
import LaxJson.Proofs.Scanner.Ahead

/-!
# LaxJson.Proofs.Document.EndMark

A document ends with the first end mark of its text. A scanner can be made to read on after an end
mark, but no operation that starts before it does so.

* `CutOff`: a scanner, and the same scanner over a text that is cut off at its first end mark. As
  long as the end mark has not been taken, both still have the same characters before it.
* `cutting`: operations that start before the end cannot tell the two apart.
* `parse_untilEnd`: so a text is parsed as the part of it before its first end mark.
-/

namespace LaxJson
namespace Scanner

open Operation

/-- Two scanners in the same state, the second over characters that are cut off at the end mark. Of
the characters nothing is said once the end mark has been taken from them. -/
structure CutOff (s t : Scanner CharsSource) : Prop where
  cursor : s.cursor = t.cursor
  options : s.options = t.options
  depth : s.depth = t.depth
  chars : s.atEnd = true ∨ s.cursor.pending = some endMark ∨
    t.source.chars = untilEnd s.source.chars

theorem nesting_cutOff : Nesting CutOff where
  position h := congrArg Cursor.position h.cursor
  options h := h.options
  depth h := h.depth
  atDepth _ h := ⟨h.cursor, h.options, rfl, h.chars⟩

theorem next_cutOff {s t : Scanner CharsSource} (h : CutOff s t) (hopen : s.atEnd = false) :
    Agree CutOff s.next t.next := by
  obtain ⟨⟨cs⟩, cursor, options, depth⟩ := s
  obtain ⟨⟨ds⟩, cursor', options', depth'⟩ := t
  obtain ⟨rfl, rfl, rfl, hchars⟩ := h
  simp only [next]
  cases hpending : cursor.pending with
  | some c =>
    refine ⟨rfl, rfl, rfl, rfl, ?_⟩
    rcases hchars with hend | hmark | hrest
    · rw [hopen] at hend
      cases hend
    · obtain rfl := Option.some.inj (hpending.symm.trans hmark)
      exact .inl rfl
    · exact .inr (.inr hrest)
  | none =>
    rcases hchars with hend | hmark | hrest
    · rw [hopen] at hend
      cases hend
    · exact absurd (hpending.symm.trans hmark) (by decide)
    · -- both read the character before the end, or both come to it
      simp only at hrest
      subst hrest
      cases cs with
      | nil => exact ⟨rfl, rfl, rfl, rfl, .inl rfl⟩
      | cons c cs =>
        by_cases hc : c = endMark
        · subst hc
          rw [untilEnd_mark]
          exact ⟨rfl, rfl, rfl, rfl, .inl rfl⟩
        · rw [untilEnd_cons hc]
          exact ⟨rfl, rfl, rfl, rfl, .inr (.inr rfl)⟩

theorem stepBack_cutOff {c : Char} {s t : Scanner CharsSource} (hs : Handed c s)
    (h : CutOff s t) : Agree CutOff s.stepBack t.stepBack := by
  obtain ⟨source, cursor, options, depth⟩ := t
  obtain ⟨rfl, rfl, rfl, hchars⟩ := h
  rw [stepBack_frame s source s.options s.depth, hs.stepBack]
  refine ⟨rfl, rfl, rfl, rfl, ?_⟩
  rcases hchars with hend | hmark | hrest
  · -- the end mark was just handed out, and now it is put back
    have hc : c = endMark := of_decide_eq_true (hs.atEnd.symm.trans hend)
    exact .inr (.inl (congrArg some (hs.previous.trans hc)))
  · exact absurd (hs.pending.symm.trans hmark) (by decide)
  · exact .inr (.inr hrest)

/-- What is read before the end does not depend on what comes after it. -/
def cutting : ValueLogic CharsSource CharsSource :=
  Logic.valueLogic
    { Holds := fun R p q s => Mirrors CutOff R p q s
      Ready := fun s => s.atEnd = false
      ready := id
      answer := fun hR _ hst => ⟨.ok hR, hst⟩
      fault := fun _ => Mirrors.fault nesting_cutOff.position _ _
      andThen := Mirrors.andThen
      next := fun hopen => Mirrors.of_agree fun hst => next_cutOff hst hopen
      stepBack := fun hs => Mirrors.of_agree (stepBack_cutOff hs) }
    nesting_cutOff.mirrors_nested nesting_cutOff.mirrors_adding

end Scanner

open Scanner

/-- A text is parsed as the part of it before its first end mark. -/
theorem parse_untilEnd (text : String) (o : Options) :
    parse text o = parse (String.ofList (untilEnd text.toList)) o := by
  have hstart : CutOff (ofSource ⟨text.toList⟩ o) (ofSource ⟨untilEnd text.toList⟩ o) :=
    ⟨rfl, rfl, rfl, .inr (.inr rfl)⟩
  have hagree := (cutting.document (s := ofSource ⟨text.toList⟩ o) rfl).agree hstart
  calc parse text o
      = (ofSource (CharsSource.mk text.toList) o).document.1 := document_ofText text o
    _ = (ofSource (CharsSource.mk (untilEnd text.toList)) o).document.1 := hagree.1
    _ = parse (String.ofList (untilEnd text.toList)) o := by
        rw [parse, document_ofText, String.toList_ofList]

theorem untilEnd_append_endMark (cs ds : List Char) :
    untilEnd (cs ++ endMark :: ds) = untilEnd cs := by
  induction cs with
  | nil => exact untilEnd_mark ds
  | cons c cs ih =>
    by_cases hc : c = endMark
    · rw [hc, List.cons_append, untilEnd_mark, untilEnd_mark]
    · rw [List.cons_append, untilEnd_cons hc, untilEnd_cons hc, ih]

/-- **An end mark ends the document, whatever follows it.** The text before it is parsed as if it
were all there is: to the same value, or with the same failure at the same position. -/
theorem parse_append_endMark (text rest : String) (o : Options) :
    parse (text ++ String.singleton endMark ++ rest) o = parse text o := by
  have hchars : (text ++ String.singleton endMark ++ rest).toList =
      text.toList ++ endMark :: rest.toList := by
    rw [String.toList_append, String.toList_append, String.toList_singleton, List.append_assoc,
      List.singleton_append]
  rw [parse_untilEnd, hchars, untilEnd_append_endMark, ← parse_untilEnd]

end LaxJson
