import LaxJson.Proofs.Document.Grammar
import LaxJson.Proofs.Scanner.Ending
import LaxJson.Proofs.Scanner.Footprint
import LaxJson.Session

/-!
# LaxJson.Proofs.Document.Exact

A value takes its own characters and no more.

* `value_closed`: a container or a quoted string is read up to its closing bracket or quote,
  whatever comes after.
* `Piece.value_poised`: so values that are written one after the other are read one after the other.
* `value_exact`: all of it.
-/

namespace LaxJson

open Grammar

/-- What a document that does not end with a blank is, but for the blanks before it. -/
theorem Grammar.Document.of_getLast? {o : Options} {p : List Char} {v : Value} {d : Char}
    (h : Document o p v) (hlast : p.getLast? = some d) (hd : ' ' < d) :
    ∃ b w, p = b ++ w ∧ Blanks b ∧ Derives o o.maxDepth (.value v) w ∧ w.getLast? = some d := by
  obtain ⟨b, w, b', rfl, hb, hw, hb'⟩ := h
  rw [List.getLast?_append] at hlast
  cases hblank : b'.getLast? with
  | some c =>
    rw [hblank] at hlast
    cases hlast
    exact absurd hd (Char.not_lt.mpr (hb' d (List.mem_of_getLast? hblank)).2)
  | none =>
    obtain rfl := List.getLast?_eq_none_iff.mp hblank
    obtain ⟨c, w', rfl, -⟩ := hw.value_head
    refine ⟨b, c :: w', List.append_nil _, hb, hw, ?_⟩
    rw [hblank, Option.none_or, List.getLast?_append, List.getLast?_cons, Option.some_or] at hlast
    rw [List.getLast?_cons]
    exact hlast

namespace Scanner

/-! ## Reading a value again -/

/-- The scanner has `rest` left of its text, with nothing put back and no container open. -/
structure Poised (o : Options) (text : String) (rest : List Char) (s : Scanner TextSource) :
    Prop where
  tracks : Tracks text s
  pending : s.cursor.pending = none
  options : s.options = o
  depth : s.depth = 0
  rest : text.toList.drop s.cursor.index = rest

variable {text : String} {s s1 s' : Scanner TextSource} {o : Options} {rest : List Char} {c : Char}
  {v : Value}

theorem ofText_poised (text : String) (o : Options) :
    Poised o text text.toList (ofText text o) :=
  ⟨ofText_tracks text o, rfl, rfl, rfl, rfl⟩

theorem Poised.remaining (h : Poised o text rest s) :
    s.source.remaining = String.ofList rest := by
  rw [h.tracks.remaining h.pending, h.rest]

/-- A scanner at the start of a text and one in the same state within another text. -/
theorem Poised.joint (h : Poised o text rest s) (x : String) :
    Joint x text s.cursor.index (ofText x o) s :=
  ⟨ofText_tracks x o, h.tracks, (Nat.zero_add _).symm, congrArg Option.isSome h.pending, h.options,
    h.depth⟩

theorem Poised.nextSolid_end (h : Poised o text [] s) : s.nextSolid.1 = .ok endMark := by
  have hle := List.drop_eq_nil_iff.mp h.rest
  obtain ⟨hnext, -⟩ := next_tracks h.tracks
  rw [item, List.getElem?_eq_none hle] at hnext
  rw [nextSolid_eq, show s.next = (.ok endMark, s.next.2) from Prod.ext hnext rfl]
  rfl

/-- A value ends before the first end mark. -/
theorem value_within (h : (ofText text o).value = (.ok v, s')) :
    Tracks text s' ∧ s'.cursor.index ≤ (untilEnd text.toList).length := by
  have hruns := ((within text).logic.value (s := ofText text o) rfl).runs (ofText_within text o)
  rw [h] at hruns
  exact ⟨hruns.1.tracks, hruns.1.index_le (value_open h)⟩

/-- What was taken for a value is read as that value wherever else it stands. -/
theorem value_again {other : String} {u : List Char} {t : Scanner TextSource}
    (h : (ofText text o).value = (.ok v, s')) (hpending : s'.cursor.pending = none)
    (ht : Poised o other (text.toList.take s'.cursor.index ++ u) t) :
    ∃ t', t.value = (.ok v, t') ∧ Poised o other u t' := by
  have hle := Nat.le_trans (value_within h).2 (length_untilEnd_le _)
  have htaken : s'.cursor.taken = s'.cursor.index := by
    rw [Cursor.taken, hpending]
    rfl
  have hlength : (text.toList.take s'.cursor.index).length = s'.cursor.index :=
    List.length_take_of_le hle
  have hoverlaps : Overlaps text other t.cursor.index s'.cursor.taken := by
    intro j hj
    rw [htaken] at hj
    rw [item, item, Nat.add_comm, ← List.getElem?_drop, ht.rest,
      List.getElem?_append_left (hlength.symm ▸ hj), List.getElem?_take_of_lt hj]
  obtain ⟨t', hvalue, hjoint⟩ := (ht.joint text).value h hoverlaps
  obtain ⟨hoptions, hdepth⟩ := value_frame t
  rw [hvalue] at hoptions hdepth
  refine ⟨t', hvalue, hjoint.right, ?_, hoptions.trans ht.options, hdepth.trans ht.depth, ?_⟩
  · have hnone := hjoint.pending
    rw [hpending] at hnone
    exact Option.isSome_eq_false_iff.mp hnone |> Option.isNone_iff_eq_none.mp
  · rw [hjoint.index, Nat.add_comm, ← List.drop_drop, ht.rest, List.drop_left' hlength]

/-- So it is a document of its own. -/
theorem parse_taken (h : (ofText text o).value = (.ok v, s'))
    (hpending : s'.cursor.pending = none) :
    parse (String.ofList (text.toList.take s'.cursor.index)) o = .ok v := by
  have hstart := ofText_poised (String.ofList (text.toList.take s'.cursor.index)) o
  rw [String.toList_ofList, ← List.append_nil (text.toList.take _)] at hstart
  obtain ⟨t, ht, hpoised⟩ := value_again h hpending hstart
  rw [List.append_nil] at ht
  rw [parse, document, ht]
  dsimp only
  rw [show t.nextSolid = (.ok endMark, t.nextSolid.2) from Prod.ext hpoised.nextSolid_end rfl]
  rfl

/-! ## Values that are closed -/

/-- A value that is no literal is spelled by what it takes, from the first character that is no
blank to the one that closes it. Nothing is put back. -/
theorem value_closed {d : Char} (hn : (ofText text o).nextSolid = (.ok c, s1))
    (hd : closer? c = some d) (h : (ofText text o).value = (.ok v, s')) :
    s'.cursor.pending = none ∧ ∃ b w, text.toList.take s'.cursor.index = b ++ w ∧ Blanks b ∧
      Derives o o.maxDepth (.value v) w ∧ w.getLast? = some d := by
  have hhanded := value_handed hn hd h
  obtain ⟨hsolid, hmark⟩ := closer?_solid hd
  obtain ⟨htracks, hindex⟩ := value_within h
  have hlast := htracks.getLast?_taken hhanded hmark
    (Nat.le_trans hindex (length_untilEnd_le _))
  have hparse := parse_taken h hhanded.pending
  rw [parse, document_ofText] at hparse
  have hdocument := document_sound (at_start _ o) (Prod.ext hparse rfl)
  rw [String.toList_ofList, untilEnd_take hindex] at hdocument
  exact ⟨hhanded.pending, hdocument.of_getLast? hlast hsolid⟩

/-- What a fresh scanner over `text` takes to read `v`, and how it is left. A container or a quoted
string is taken up to its closing bracket or quote, whatever comes after; a literal up to the
character that stops it. -/
inductive Takes (o : Options) (text : String) (v : Value) (s' : Scanner TextSource) : Prop where
  | closed {b w tail : List Char} {c d : Char} :
    text.toList = b ++ w ++ tail → Blanks b → Derives o o.maxDepth (.value v) w →
      w.head? = some c → closer? c = some d → w.getLast? = some d →
      s'.cursor.pending = none → s'.source.remaining = String.ofList tail →
      (∀ u, ∃ s1, (ofText (String.ofList (b ++ w ++ u)) o).value = (.ok v, s1) ∧
        s1.cursor.pending = none ∧ s1.source.remaining = String.ofList u) →
      Takes o text v s'
  | literal {b rest : List Char} {c : Char} :
    text.toList = b ++ c :: rest → Blanks b → ' ' < c → closer? c = none →
      s'.next.1 = .ok (((c :: rest).find? endsBare).getD endMark) →
      Takes o text v s'

theorem value_takes (h : (ofText text o).value = (.ok v, s')) : Takes o text v s' := by
  rcases hn : (ofText text o).nextSolid with ⟨e | c, s1⟩
  · rw [value_eq, hn] at h
    cases h
  have htracks := ofText_tracks text o
  obtain ⟨-, hsolid, b, hb, -, hdrop⟩ := nextSolid_skips htracks hn (value_solid hn h)
  have htext : text.toList = b ++ c :: text.toList.drop s1.cursor.index := hdrop
  cases hd : closer? c with
  | none => exact .literal htext hb hsolid hd (value_literal htracks hn hd h)
  | some d =>
    obtain ⟨hpending, b', w, htake, hb', hw, hlast⟩ := value_closed hn hd h
    obtain ⟨c', w', rfl, hsolid', -⟩ := hw.value_head
    have hsplit : text.toList = b' ++ (c' :: w') ++ text.toList.drop s'.cursor.index := by
      rw [← htake, List.take_append_drop]
    obtain ⟨-, hhead⟩ := hb.unique hb' (solid_cons_of_not_blank (not_blank_iff.mpr hsolid) _)
      (solid_cons_of_not_blank (not_blank_iff.mpr hsolid') _)
      (htext.symm.trans (hsplit.trans (List.append_assoc _ _ _)))
    obtain ⟨rfl, -⟩ := List.cons.inj hhead
    refine .closed hsplit hb' hw rfl hd hlast hpending ?_ ?_
    · exact (value_within h).1.remaining hpending
    · intro u
      have hstart := ofText_poised (String.ofList (b' ++ (c :: w') ++ u)) o
      rw [String.toList_ofList, ← htake] at hstart
      obtain ⟨s2, hs2, hpoised⟩ := value_again h hpending hstart
      rw [htake] at hs2
      exact ⟨s2, hs2, hpoised.pending, hpoised.remaining⟩

/-! ## One value after the other -/

/-- A container or a quoted string that fills `text`, written with blanks before it. -/
structure Piece (o : Options) where
  blanks : List Char
  text : List Char
  value : Value
  blank : Blanks blanks
  closed : ∃ c d, text.head? = some c ∧ closer? c = some d
  reads : ∃ s, (ofText (String.ofList text) o).value = (.ok value, s) ∧ s.source.remaining = ""

def Piece.spelled (p : Piece o) : List Char := p.blanks ++ p.text

theorem Poised.next (h : Poised o text (c :: rest) s) :
    ∃ s1, s.next = (.ok c, s1) ∧ Poised o text rest s1 := by
  obtain ⟨hnext, htracks, hindex, -⟩ := next_tracks h.tracks
  have hitem : item text s.cursor.index = c := by
    rw [item, ← Nat.add_zero s.cursor.index, ← List.getElem?_drop, h.rest]
    rfl
  have hc : s.next = (.ok c, s.next.2) := Prod.ext (hitem ▸ hnext) rfl
  obtain ⟨hoptions, hdepth⟩ := next_frame s
  refine ⟨s.next.2, hc, htracks, (next_handed hc).pending, hoptions.trans h.options,
    hdepth.trans h.depth, ?_⟩
  rw [hindex, ← List.drop_drop, h.rest]
  rfl

theorem Poised.skip {b : List Char} (h : Poised o text (b ++ rest) s) (hb : Blanks b) :
    ∃ s1, s.value = s1.value ∧ Poised o text rest s1 := by
  induction b generalizing s with
  | nil => exact ⟨s, rfl, h⟩
  | cons c b ih =>
    obtain ⟨hc, hb⟩ := List.forall_mem_cons.mp hb
    obtain ⟨s1, hnext, h1⟩ := h.next
    obtain ⟨s2, hvalue, h2⟩ := ih h1 hb
    have hmark : c ≠ endMark := by
      rintro rfl
      exact absurd hc.1 (by decide)
    exact ⟨s2, (value_of_blank hnext (isBlank_iff.mpr hc.2) hmark).trans hvalue, h2⟩

/-- The piece is read wherever it stands. -/
theorem Piece.value_poised (p : Piece o) (h : Poised o text (p.spelled ++ rest) s) :
    ∃ s', s.value = (.ok p.value, s') ∧ Poised o text rest s' := by
  obtain ⟨t, ht, hremaining⟩ := p.reads
  have hpending : t.cursor.pending = none := by
    cases value_takes ht with
    | closed _ _ _ _ _ _ hpending => exact hpending
    | @literal b rest' c' htext hb hsolid hnone =>
      obtain ⟨c, d, hhead, hd⟩ := p.closed
      rw [String.toList_ofList] at htext
      rw [htext] at hhead
      cases b with
      | nil =>
        cases hhead
        rw [hd] at hnone
        cases hnone
      | cons x b =>
        cases hhead
        exact absurd (closer?_opening hd) (Char.not_lt.mpr (hb c List.mem_cons_self).2)
  have htake : (String.ofList p.text).toList.take t.cursor.index = p.text := by
    rw [(value_within ht).1.remaining hpending] at hremaining
    have hdrop := congrArg String.toList hremaining
    rw [String.toList_ofList, String.toList_ofList, String.toList_empty] at hdrop
    rw [String.toList_ofList, List.take_of_length_le (List.drop_eq_nil_iff.mp hdrop)]
  rw [spelled, List.append_assoc] at h
  obtain ⟨s1, hvalue, h1⟩ := h.skip p.blank
  rw [← htake] at h1
  obtain ⟨s', hs', hpoised⟩ := value_again ht hpending h1
  exact ⟨s', hvalue.trans hs', hpoised⟩

theorem run_pieces (pieces : List (Piece o))
    (h : Poised o text (pieces.flatMap Piece.spelled ++ rest) s) :
    let r := s.run (List.replicate pieces.length .value)
    r.1.map Prod.fst = pieces.map (fun p => .ok (.value p.value)) ∧ Poised o text rest r.2 := by
  induction pieces generalizing s with
  | nil => exact ⟨rfl, h⟩
  | cons p pieces ih =>
    rw [List.flatMap_cons, List.append_assoc] at h
    obtain ⟨s1, hvalue, h1⟩ := p.value_poised h
    obtain ⟨hanswers, hend⟩ := ih h1
    simp only [List.length_cons, List.replicate_succ, run, perform, reply, hvalue]
    exact ⟨congrArg (List.cons _) hanswers, hend⟩

/-- **A value takes its own characters and no more.** Whatever text a fresh scanner reads a value
from: a container or a quoted string is taken up to its closing bracket or quote, with nothing put
back, and is read alike with any other text after it, of which all is left; after a literal comes
the character that stopped it, or the end mark. And containers and quoted strings that are written
one after the other, with blanks between them, are read one after the other by one scanner, and what
follows them is left. -/
theorem value_exact (o : Options) :
    (∀ (text : String) (v : Value) (s' : Scanner TextSource),
      (ofText text o).value = (.ok v, s') → Takes o text v s') ∧
    ∀ (pieces : List (Piece o)) (rest : List Char),
      let s := ofText (String.ofList (pieces.flatMap Piece.spelled ++ rest)) o
      let r := s.run (List.replicate pieces.length .value)
      r.1.map Prod.fst = pieces.map (fun p => .ok (.value p.value)) ∧
        r.2.cursor.pending = none ∧ r.2.source.remaining = String.ofList rest := by
  refine ⟨fun text v s' h => value_takes h, fun pieces rest => ?_⟩
  have hstart := ofText_poised (String.ofList (pieces.flatMap Piece.spelled ++ rest)) o
  rw [String.toList_ofList] at hstart
  obtain ⟨hanswers, hend⟩ := run_pieces pieces hstart
  exact ⟨hanswers, hend.pending, hend.remaining⟩

/-- An array with an object right behind it, and what is left after them. -/
theorem value_exact_unspaced :
    ∃ v v', let r := (ofText " ['a',]\x7bb:1\x7d ,2" {}).run [.value, .value]
      r.1.map Prod.fst = [.ok (.value v), .ok (.value v')] ∧ r.2.cursor.pending = none ∧
        r.2.source.remaining = " ,2" := by
  have hreads (text : String) (hok : (ofText text {}).value.1.isOk = true) :
      ∃ v s, (ofText text {}).value = (.ok v, s) := by
    rcases h : (ofText text {}).value with ⟨e | v, s⟩
    · rw [h] at hok
      cases hok
    · exact ⟨v, s, rfl⟩
  obtain ⟨v, s, hv⟩ := hreads "['a',]" (by decide +kernel)
  obtain ⟨v', s', hv'⟩ := hreads "\x7bb:1\x7d" (by decide +kernel)
  have hs : (ofText "['a',]" {}).value.2.source.remaining = "" := by decide +kernel
  have hs' : (ofText "\x7bb:1\x7d" {}).value.2.source.remaining = "" := by decide +kernel
  rw [hv] at hs
  rw [hv'] at hs'
  let first : Piece {} := ⟨[' '], "['a',]".toList, v, by decide, ⟨'[', ']', rfl, rfl⟩, s, hv, hs⟩
  let second : Piece {} :=
    ⟨[], "\x7bb:1\x7d".toList, v', by decide, ⟨'\x7b', '\x7d', rfl, rfl⟩, s', hv', hs'⟩
  exact ⟨v, v', (value_exact {}).2 [first, second] " ,2".toList⟩

end Scanner

end LaxJson
