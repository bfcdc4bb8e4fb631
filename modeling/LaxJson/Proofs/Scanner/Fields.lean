import LaxJson.Proofs.Grammar.Tokens
import LaxJson.Proofs.Scanner.Taking

/-!
# LaxJson.Proofs.Scanner.Fields

Reading a field, in any state that requests lead to over a source that does not fail. A stop is put
back after the field and the end of the input is not, so that the two leave the scanner in different
places.

* `trimmed_iff`: trimming removes the blanks at both ends, and nothing else.
* `fieldFrom_free`: characters that do not end a field are gathered one by one. What comes after
  them decides, `fieldFrom_stopped` and `fieldFrom_ended`.
* `ReadsField`: what is answered, and where the scanner is left at a stop and at the end.
* `run_fields`: so it is after any requests, with every delimiter and every set of delimiters.
-/

namespace LaxJson

open CharSource (Gives Unfailing)
open Grammar (isBlank_iff not_blank_iff)

/-! ## Trimming -/

/-- What is left of `w` when the characters up to the space are removed from both its ends. -/
structure Trimmed (w t : List Char) : Prop where
  cut : ∃ before after, w = before ++ t ++ after ∧
    (∀ c ∈ before, c ≤ ' ') ∧ ∀ c ∈ after, c ≤ ' '
  first : ∀ c, t.head? = some c → ' ' < c
  last : ∀ c, t.getLast? = some c → ' ' < c

theorem trimmed_trimBlanks (w : List Char) : Trimmed w (trimBlanks w) := by
  have hparts : trimBlanks w = (w.dropWhile isBlank).rdropWhile isBlank := rfl
  rw [hparts]
  refine ⟨⟨w.takeWhile isBlank, (w.dropWhile isBlank).rtakeWhile isBlank, ?_, ?_, ?_⟩, ?_, ?_⟩
  · rw [List.append_assoc, List.rdropWhile_append_rtakeWhile, List.takeWhile_append_dropWhile]
  · exact fun c hc => isBlank_iff.mp (List.mem_takeWhile_imp hc)
  · exact fun c hc => isBlank_iff.mp (List.mem_rtakeWhile_imp hc)
  · -- the cut from the right leaves the character at which the cut from the left stopped
    intro c hc
    obtain ⟨rest, hrest⟩ := List.rdropWhile_prefix isBlank (w.dropWhile isBlank)
    have hhead : (w.dropWhile isBlank).head? = some c := by
      rw [← hrest, List.head?_append, hc, Option.some_or]
    have hsolid := List.head?_dropWhile_not isBlank w
    rw [hhead] at hsolid
    exact not_blank_iff.mp hsolid
  · intro c hc
    have hne : (w.dropWhile isBlank).rdropWhile isBlank ≠ [] := by
      intro hnil
      rw [hnil] at hc
      cases hc
    rw [List.getLast?_eq_some_getLast hne, Option.some.injEq] at hc
    rw [← hc]
    exact not_blank_iff.mp (Bool.eq_false_iff.mpr (List.rdropWhile_last_not isBlank _ hne))

/-- Trimming leaves that and nothing else. -/
theorem trimmed_iff {w t : List Char} : Trimmed w t ↔ t = trimBlanks w := by
  refine ⟨?_, fun h => h ▸ trimmed_trimBlanks w⟩
  rintro ⟨⟨before, after, rfl, hbefore, hafter⟩, hfirst, hlast⟩
  have hbefore : ∀ c ∈ before, isBlank c = true := fun c hc => isBlank_iff.mpr (hbefore c hc)
  have hafter : ∀ c ∈ after, isBlank c = true := fun c hc => isBlank_iff.mpr (hafter c hc)
  have hparts : trimBlanks (before ++ t ++ after) =
      ((t ++ after).dropWhile isBlank).rdropWhile isBlank := by
    rw [List.append_assoc, ← List.dropWhile_append_of_pos hbefore]
    rfl
  rw [hparts]
  cases t with
  | nil =>
    rw [List.nil_append, List.dropWhile_eq_nil_iff.mpr hafter]
    rfl
  | cons c t =>
    have hsolid := not_blank_iff.mpr (hfirst c rfl)
    rw [List.cons_append, List.dropWhile_cons_of_neg (by rw [hsolid]; decide), ← List.cons_append,
      Grammar.rdropWhile_append_of_blank hafter, eq_comm, List.rdropWhile_eq_self_iff]
    intro hne hblank
    rw [not_blank_iff.mpr (hlast _ (List.getLast?_eq_some_getLast hne))] at hblank
    cases hblank

namespace Scanner

variable {σ : Type} [CharSource σ] {s : Scanner σ} {u w text delimiters : List Char} {c : Char}

/-! ## Characters of a field -/

/-- The end of the input and a line break end every field. -/
def EndsField (delimiters : List Char) (c : Char) : Prop :=
  c ∈ delimiters ∨ c = '\r' ∨ c = '\n' ∨ c = endMark

instance (delimiters : List Char) (c : Char) : Decidable (EndsField delimiters c) :=
  inferInstanceAs (Decidable (_ ∨ _))

/-- The longest prefix in which nothing ends a field. -/
def fieldAhead (delimiters u : List Char) : List Char :=
  u.takeWhile fun c => ¬ EndsField delimiters c

theorem fieldAhead_free : ∀ c ∈ fieldAhead delimiters u, ¬ EndsField delimiters c := by
  intro c hc
  have hnot := List.mem_takeWhile_imp hc
  exact of_decide_eq_true hnot

/-- Nothing comes behind it, or something that does end a field. -/
theorem fieldAhead_split (delimiters u : List Char) :
    u = fieldAhead delimiters u ∨
      ∃ c rest, u = fieldAhead delimiters u ++ c :: rest ∧ EndsField delimiters c := by
  have hsplit : fieldAhead delimiters u ++ u.dropWhile (fun c => ¬ EndsField delimiters c) = u :=
    List.takeWhile_append_dropWhile
  have hfirst := List.head?_dropWhile_not (fun c => decide (¬ EndsField delimiters c)) u
  cases hrest : u.dropWhile (fun c => ¬ EndsField delimiters c) with
  | nil =>
    rw [hrest, List.append_nil] at hsplit
    exact .inl hsplit.symm
  | cons c rest =>
    rw [hrest] at hsplit hfirst
    exact .inr ⟨c, rest, hsplit.symm, not_not.mp (of_decide_eq_false hfirst)⟩

section Finite

variable [FiniteSource σ] {isDelimiter : Char → Bool}

theorem fieldFrom_free (hdelimiter : ∀ c, isDelimiter c = true ↔ c ∈ delimiters)
    (text : List Char) (hfree : ∀ c ∈ w, ¬ EndsField delimiters c) (h : Offers w s) :
    fieldFrom isDelimiter text s =
      fieldFrom isDelimiter (w.reverse ++ text) (s.nextTimes w.length) := by
  induction w generalizing s text with
  | nil => rfl
  | cons c w ih =>
    obtain ⟨hc, hw⟩ := List.forall_mem_cons.mp hfree
    simp only [EndsField, not_or] at hc
    obtain ⟨hd, hr, hn, hmark⟩ := hc
    rw [fieldFrom_eq, h.next]
    simp only [hmark, hn, hr, Bool.eq_false_iff.mpr (mt (hdelimiter c).mp hd), if_false,
      Bool.false_eq_true, or_false]
    rw [ih (c :: text) hw h.2, List.reverse_cons, List.append_assoc]
    rfl

/-- A stop is put back. -/
theorem fieldFrom_stopped (hdelimiter : ∀ c, isDelimiter c = true ↔ c ∈ delimiters)
    (hfree : ∀ c ∈ w, ¬ EndsField delimiters c) (hc : EndsField delimiters c) (hmark : c ≠ endMark)
    (h : Offers (w ++ [c]) s) :
    fieldFrom isDelimiter [] s =
      (.ok (String.ofList (trimBlanks w)), (s.nextTimes (w.length + 1)).stepBack.2) := by
  obtain ⟨hw, hstop⟩ := offers_append.mp h
  have hstops : c = '\n' ∨ c = '\r' ∨ isDelimiter c = true := by
    rw [hdelimiter]
    rcases hc with hd | hr | hl | he
    · exact .inr (.inr hd)
    · exact .inr (.inl hr)
    · exact .inl hl
    · exact absurd he hmark
  rw [fieldFrom_free hdelimiter [] hfree hw, fieldFrom_eq, hstop.next]
  simp only [hmark, hstops, if_false, if_true, (next_handed hstop.next).stepBack]
  rw [List.append_nil, List.reverse_reverse, nextTimes_add, nextTimes, nextTimes,
    (next_handed hstop.next).stepBack]

/-- The end stays read, also where it is a delimiter. -/
theorem fieldFrom_ended (hdelimiter : ∀ c, isDelimiter c = true ↔ c ∈ delimiters)
    (hfree : ∀ c ∈ w, ¬ EndsField delimiters c) (h : Offers (w ++ [endMark]) s) :
    fieldFrom isDelimiter [] s =
      (.ok (String.ofList (trimBlanks w)), s.nextTimes (w.length + 1)) := by
  obtain ⟨hw, hend⟩ := offers_append.mp h
  rw [fieldFrom_free hdelimiter [] hfree hw, fieldFrom_eq, hend.next]
  simp only [if_true]
  rw [List.append_nil, List.reverse_reverse, nextTimes_add, nextTimes, nextTimes]

end Finite

/-! ## A whole field -/

/-- How reading a field goes when `u` is left before the end. -/
structure ReadsField (delimiters u : List Char) (read : Operation σ String) (s : Scanner σ) :
    Prop where
  /-- The field is answered without the blanks around it. -/
  field : ∃ t, Trimmed (fieldAhead delimiters u) t ∧ (read s).1 = .ok (String.ofList t)
  /-- It is consumed with the blanks, and its stop comes next, where it stands. -/
  stopped : ∀ c rest, u = fieldAhead delimiters u ++ c :: rest →
    (read s).2.position = (s.nextTimes (fieldAhead delimiters u).length).position ∧
      (read s).2.position.index = s.position.index + (fieldAhead delimiters u).length ∧
      (read s).2.next = (.ok c, s.nextTimes ((fieldAhead delimiters u).length + 1)) ∧
      Offers (c :: rest ++ [endMark]) (read s).2
  /-- No stop comes. All of `u` is consumed, and the end mark. -/
  ended : u = fieldAhead delimiters u →
    (read s).2 = s.nextTimes (u.length + 1) ∧
      (read s).2.position.index = s.position.index + u.length + 1 ∧ (read s).2.atEnd = true

theorem readsField_of_offers [FiniteSource σ] {isDelimiter : Char → Bool}
    (hdelimiter : ∀ c, isDelimiter c = true ↔ c ∈ delimiters) (hmark : endMark ∉ u)
    (h : Offers (u ++ [endMark]) s) : ReadsField delimiters u (fieldFrom isDelimiter []) s := by
  have htrimmed := trimmed_trimBlanks (fieldAhead delimiters u)
  have hfree : ∀ c ∈ fieldAhead delimiters u, ¬ EndsField delimiters c := fieldAhead_free
  rcases fieldAhead_split delimiters u with hw | ⟨c, rest, hw, hc⟩
  · have hindex := index_nextTimes h
    rw [List.length_append, List.length_singleton] at hindex
    have hread := fieldFrom_ended hdelimiter (hw ▸ hfree) h
    have hend := (offers_append.mp h).2
    refine ⟨⟨_, htrimmed, ?_⟩, ?_, fun _ => ?_⟩
    · rw [hread, ← hw]
    · intro c rest hrest
      rw [← hw] at hrest
      cases List.self_eq_append_right.mp hrest
    · rw [hread]
      refine ⟨rfl, hindex, ?_⟩
      rw [nextTimes_add]
      exact (next_handed hend.next).atEnd
  · have hmarked : c ≠ endMark := by
      rintro rfl
      exact hmark (hw ▸ List.mem_append_right _ List.mem_cons_self)
    rw [hw, List.append_assoc, List.cons_append] at h
    obtain ⟨hfield, hrest⟩ := offers_append.mp h
    have hindex := index_nextTimes hfield
    have hafter : s.nextTimes ((fieldAhead delimiters u).length + 1) =
        (s.nextTimes (fieldAhead delimiters u).length).next.2 := nextTimes_add _ _ 1
    have hread := fieldFrom_stopped hdelimiter hfree hc hmarked
      (offers_append.mpr ⟨hfield, hrest.next ▸ rfl, trivial⟩)
    obtain ⟨hnext, hposition⟩ := next_stepBack hrest.next
    rw [← hafter] at hnext hposition
    refine ⟨⟨_, htrimmed, congrArg Prod.fst hread⟩, fun d rest' hd => ?_, fun hall => ?_⟩
    · obtain ⟨rfl, rfl⟩ := List.cons.inj (List.append_cancel_left (hw.symm.trans hd))
      rw [hread]
      refine ⟨hposition, ?_, hnext, .of_next hnext ?_⟩
      · rw [hposition, hindex]
      · rw [hafter]
        exact hrest.2
    · cases List.self_eq_append_right.mp (hall.symm.trans hw)

/-! ## After any requests -/

/-- Fields are read as `ReadsField` says, with every delimiter and with every set of delimiters. -/
def ReadsFields [FiniteSource σ] (s : Scanner σ) : Prop :=
  ∃ cs, Gives cs s.source ∧
    (∀ delimiter, ReadsField [delimiter] (s.stream cs) (fun s => s.fieldTo delimiter) s) ∧
    ∀ delimiters, ReadsField delimiters.toList (s.stream cs) (fun s => s.fieldToAny delimiters) s

theorem readsFields_of_unfailing [FiniteSource σ] (h : Unfailing s.source) : ReadsFields s := by
  obtain ⟨cs, hcs⟩ := h.exists_gives
  have hoffers := offers_of_gives hcs
  have hmark := not_mem_untilEnd (s.cursor.pending.toList ++ cs)
  refine ⟨cs, hcs, fun delimiter => ?_, fun delimiters => ?_⟩
  · exact readsField_of_offers
      (fun c => decide_eq_true_iff.trans List.mem_singleton.symm) hmark hoffers
  · exact readsField_of_offers (fun c => List.contains_iff_mem) hmark hoffers

/-- **A field is what comes before its stop.** Let any requests have been served, over a source that
does not fail. It gives some characters before it comes to its end; these and the pushback before
them, up to the first end mark, are left to the scanner. Reading a field, with any delimiter or any
set of delimiters, takes the longest prefix of these in which there is no delimiter and no line
break, and answers it without the blanks at both its ends. If a delimiter or a line break comes
next, exactly that prefix has been consumed, and the stop is the next character to be read, where it
stands. Otherwise the end mark has been consumed as well, and the scanner is at its end. Delimiters
that are blanks, line breaks or the end mark are no exception. Of a source that is not finite, as
many reads are allowed as one likes. -/
theorem run_fields {source : σ} (h : Unfailing source) (o : Options) (requests : List Request) :
    (∀ [FiniteSource σ], ReadsFields ((ofSource source o).run requests).2) ∧
      ∀ reads, ReadsFields ((ofSource (MeteredSource.mk source reads) o).run requests).2 := by
  have hall {τ : Type} [CharSource τ] [FiniteSource τ] {source : τ} (h : Unfailing source) :
      ReadsFields ((ofSource source o).run requests).2 := by
    apply readsFields_of_unfailing
    exact (invariant_source fun _ request hs => hs.perform request).run requests h
  exact ⟨hall h, fun reads => hall (MeteredSource.unfailing h)⟩

/-- A delimiter that was put back, a line break, and the end mark as a delimiter, after which the
source goes on. -/
theorem run_fields_resumed :
    let source : ScriptSource :=
      ⟨[.ok (some ','), .ok (some ' '), .ok (some 'a'), .ok (some '\t'), .ok (some '\r'), .ok none,
        .ok (some 'b')]⟩
    let s := ((ofSource source {}).run [.next, .stepBack]).2
    let t := (s.run [.next, .fieldToAny ";,", .next]).2
    Unfailing source ∧ ReadsFields s ∧ (s.fieldTo ',').1 = .ok "" ∧
      (s.fieldTo ',').2.next.1 = .ok ',' ∧ (s.next.2.fieldTo ',').1 = .ok "a" ∧
      (s.next.2.fieldTo ',').2.next.1 = .ok '\r' ∧ (t.fieldTo endMark).1 = .ok "" ∧
      (t.fieldTo endMark).2.position = ⟨6, 2, 1⟩ ∧ (t.fieldTo endMark).2.next.1 = .ok 'b' := by
  intro source s t
  have hsource : Unfailing source := by
    apply ScriptSource.unfailing
    intro a ha
    simp only [source, List.mem_cons, List.not_mem_nil, or_false] at ha
    rcases ha with rfl | rfl | rfl | rfl | rfl | rfl | rfl <;> exact ⟨_, rfl⟩
  exact ⟨hsource, (run_fields hsource {} [.next, .stepBack]).1, by with_unfolding_all rfl,
    by with_unfolding_all rfl, by with_unfolding_all rfl, by with_unfolding_all rfl,
    by with_unfolding_all rfl, by with_unfolding_all rfl, by with_unfolding_all rfl⟩

end Scanner

end LaxJson
