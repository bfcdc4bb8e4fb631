import LaxJson.Proofs.Position.Breaks
import LaxJson.Proofs.Scanner.Invariant
import LaxJson.Proofs.Source.Text

/-!
# LaxJson.Proofs.Scanner.Tracking

A scanner over a text is a cursor over a fixed sequence of items: the characters of the text, NUL
characters among them, and then the end mark without end.

* `Stands`: source and cursor are those of some number of items read in order, perhaps with the
  latest one put back. Nothing else about them is left open.
* `tracking`: this is an invariant of a scanner; a search that fails goes back to a
  cursor and a mark that stood so.
* `run_ofText`: so after any run of requests the index alone says which item comes next, and line,
  column and previous character are those of the items before it.
-/

namespace LaxJson

/-- The item `i` of a text. -/
def item (text : String) (i : Nat) : Char := text.toList[i]?.getD endMark

/-- The first `i` items of a text. -/
def itemsBefore (text : String) (i : Nat) : List Char := (List.range i).map (item text)

theorem itemsBefore_succ (text : String) (i : Nat) :
    itemsBefore text (i + 1) = itemsBefore text i ++ [item text i] := by
  simp only [itemsBefore, List.range_succ, List.map_append, List.map_singleton]

theorem length_itemsBefore (text : String) (i : Nat) : (itemsBefore text i).length = i := by
  simp only [itemsBefore, List.length_map, List.length_range]

theorem itemsBefore_eq_take {text : String} {i : Nat} (h : i ≤ text.toList.length) :
    itemsBefore text i = text.toList.take i := by
  induction i with
  | zero => rfl
  | succ i ih =>
    have hlt : i < text.toList.length := h
    rw [itemsBefore_succ, ih (Nat.le_of_lt hlt), List.take_add_one, item,
      List.getElem?_eq_getElem hlt, Option.getD_some, Option.toList_some]

namespace Cursor

/-- The cursor that has advanced over `cs` from the start. -/
def after (cs : List Char) : Cursor := cs.foldl advance start

theorem after_append (cs : List Char) (c : Char) : after (cs ++ [c]) = (after cs).advance c := by
  simp only [after, List.foldl_append, List.foldl_cons, List.foldl_nil]

theorem after_index (cs : List Char) : (after cs).index = cs.length := by
  induction cs using List.reverseRecOn with
  | nil => rfl
  | append_singleton cs c ih => rw [after_append, advance, ih, List.length_append]; rfl

theorem after_lines (cs : List Char) : (after cs).lines = Lines.after cs := by
  induction cs using List.reverseRecOn with
  | nil => rfl
  | append_singleton cs c ih => rw [after_append, advance, ih, Lines.after_append]

theorem after_pending (cs : List Char) : (after cs).pending = none := by
  rcases List.eq_nil_or_concat cs with rfl | ⟨init, c, rfl⟩
  · rfl
  · rw [List.concat_eq_append, after_append, advance_pending]

theorem after_previous (cs : List Char) : (after cs).previous = cs.getLast?.getD endMark := by
  rcases List.eq_nil_or_concat cs with rfl | ⟨init, c, rfl⟩
  · rfl
  · rw [List.concat_eq_append, after_append, advance_previous]
    simp

theorem after_ended (cs : List Char) :
    (after cs).ended = decide (cs.getLast? = some endMark) := by
  rcases List.eq_nil_or_concat cs with rfl | ⟨init, c, rfl⟩
  · rfl
  · rw [List.concat_eq_append, after_append, advance]
    simp

end Cursor

namespace Scanner

open TextSource (place)

/-- An offset into a text and a cursor that belong together: the first items of the text have been
read, and the last of them may have been put back. -/
inductive Stands (text : String) : String.Pos.Raw → Cursor → Prop where
  | read (i : Nat) : Stands text (place text i) (.after (itemsBefore text i))
  | putBack (i : Nat) :
    Stands text (place text (i + 1)) (.stepBack (.after (itemsBefore text (i + 1))))

/-- The scanner reads `text` and stands at some item of it. -/
structure Tracks (text : String) (s : Scanner TextSource) : Prop where
  source : s.source.text = text
  stands : Stands text s.source.offset s.cursor

theorem ofText_tracks (text : String) (options : Options) : Tracks text (ofText text options) :=
  ⟨rfl, .read 0⟩

theorem index_stepBack (text : String) (i : Nat) :
    (Cursor.after (itemsBefore text (i + 1))).stepBack.index = i := by
  simp only [Cursor.stepBack, Cursor.after_index, length_itemsBefore]
  omega

/-- The item put back is read again as if for the first time. -/
theorem advance_putBack (text : String) (i : Nat) :
    (Cursor.after (itemsBefore text (i + 1))).stepBack.advance (item text i) =
      .after (itemsBefore text (i + 1)) := by
  rw [itemsBefore_succ, Cursor.after_append, Cursor.advance_stepBack]

theorem pending_putBack (text : String) (i : Nat) :
    (Cursor.after (itemsBefore text (i + 1))).stepBack.pending = some (item text i) := by
  rw [itemsBefore_succ, Cursor.after_append]
  rfl

/-- Reading hands out the item at the index, and the mark of the source stays where it is. -/
theorem next_tracks {text : String} {s : Scanner TextSource} (h : Tracks text s) :
    s.next.1 = .ok (item text s.cursor.index) ∧ Tracks text s.next.2 ∧
      s.next.2.cursor.index = s.cursor.index + 1 ∧ s.next.2.source.marked = s.source.marked := by
  obtain ⟨source, cursor, options, depth⟩ := s
  obtain ⟨htext, hstands⟩ := h
  simp only at htext hstands
  subst htext
  generalize hoffset : source.offset = offset at hstands
  cases hstands with
  | read i =>
    have hread : CharSource.read source =
        (.ok source.text.toList[i]?, { source with offset := place source.text (i + 1) }) :=
      TextSource.read_place hoffset
    have hadvance : (Cursor.after (itemsBefore source.text i)).advance
        (source.text.toList[i]?.getD endMark) = .after (itemsBefore source.text (i + 1)) := by
      rw [itemsBefore_succ, Cursor.after_append, item]
    simp only [next, Cursor.after_pending, hread, hadvance, Cursor.after_index, length_itemsBefore,
      and_true]
    exact ⟨rfl, rfl, .read (i + 1)⟩
  | putBack i =>
    simp only [next, pending_putBack, index_stepBack, advance_putBack, Cursor.after_index,
      length_itemsBefore, true_and, and_true]
    exact ⟨rfl, hoffset ▸ .read (i + 1)⟩

theorem stepBack_tracks {text : String} {s : Scanner TextSource} (h : Tracks text s) :
    Tracks text s.stepBack.2 := by
  obtain ⟨source, cursor, options, depth⟩ := s
  obtain ⟨htext, hstands⟩ := h
  simp only at htext hstands
  subst htext
  generalize hoffset : source.offset = offset at hstands
  cases hstands with
  | read i =>
    cases i with
    | zero => exact ⟨rfl, hoffset ▸ .read 0⟩
    | succ i =>
      simp only [stepBack, Cursor.after_pending, Cursor.after_index, length_itemsBefore]
      exact ⟨rfl, hoffset ▸ .putBack i⟩
  | putBack i =>
    simp only [stepBack, pending_putBack, Option.isSome_some, if_true]
    exact ⟨rfl, hoffset ▸ .putBack i⟩

/-- A search keeps the invariant if cursor and mark, to which it may go back, stand in the text. -/
theorem seekFrom_tracks {text : String} (target : Char) (origin : Cursor) (mark : String.Pos.Raw)
    (horigin : Stands text mark origin) (s : Scanner TextSource) (h : Tracks text s)
    (hmark : s.source.marked = some mark) : Tracks text (seekFrom target origin s).2 := by
  have hreset : ∀ s : Scanner TextSource, s.source.marked = some mark →
      CharSource.reset s.source = (.ok (), { s.source with offset := mark }) :=
    fun s hs => TextSource.reset_marked hs
  refine seekFrom_rule (P := fun s => Tracks text s ∧ s.source.marked = some mark)
    (Q := fun r => Tracks text r.2) ?next ?failed ?lost ?ended ?found ⟨h, hmark⟩
  case next =>
    rintro s ⟨hs, hset⟩
    obtain ⟨-, hs1, -, hset1⟩ := next_tracks hs
    exact ⟨hs1, hset1.trans hset⟩
  case failed =>
    rintro s e ⟨hs, -⟩
    exact hs
  case lost =>
    rintro s e source ⟨-, hset⟩ hr
    rw [hreset s hset] at hr
    cases hr
  case ended =>
    rintro s source ⟨hs, hset⟩ hr
    rw [hreset s hset] at hr
    cases hr
    exact ⟨hs.source, horigin⟩
  case found =>
    rintro s ⟨hs, -⟩ hhanded
    have hback := stepBack_tracks hs
    rw [hhanded.stepBack] at hback
    exact ⟨hback.source, hback.stands⟩

theorem seek_tracks {text : String} {s : Scanner TextSource} (h : Tracks text s) (target : Char) :
    Tracks text (s.seek target).2 :=
  seekFrom_tracks target s.cursor s.source.offset h.stands
    { s with source := { s.source with marked := some s.source.offset } } ⟨h.source, h.stands⟩ rfl

theorem tracking (text : String) : Invariant (Tracks text) where
  atDepth _ h := ⟨h.source, h.stands⟩
  next h := (next_tracks h).2.1
  stepBack := stepBack_tracks
  seek := seek_tracks

/-- What a scanner that stands in a text shows: line and column are those of the items before its
index. The previous character and the end of the input are read off the last of these items, or, if
an item is put back, off that item, which is then the one at the index. -/
theorem Stands.shows {text : String} {offset : String.Pos.Raw} {k : Cursor}
    (h : Stands text offset k) :
    k.lines = Lines.after (itemsBefore text k.index) ∧
      (k.pending = none ∧ k.previous = (itemsBefore text k.index).getLast?.getD endMark ∧
          k.atEnd = decide ((itemsBefore text k.index).getLast? = some endMark) ∨
        k.pending = some (item text k.index) ∧ k.previous = item text k.index ∧
          k.atEnd = false) := by
  cases h with
  | read i =>
    simp only [Cursor.after_index, length_itemsBefore, Cursor.after_lines, Cursor.after_pending,
      Cursor.after_previous, Cursor.atEnd, Cursor.after_ended, Option.isNone_none, Bool.and_true,
      and_true, true_or]
  | putBack i =>
    rw [index_stepBack, pending_putBack, itemsBefore_succ, Cursor.after_append]
    exact ⟨Cursor.after_lines _, .inr ⟨rfl, rfl, rfl⟩⟩

/-- **A scanner over a text is a cursor over its items.** After any run of requests, with `i` the
index of the scanner and `cs` the items before it: the next character is the item `i`; line and
column are those of `cs`; nothing is put back or the item `i` is; and the previous character and
the end of the input are read off the last of `cs`, or off the item put back. -/
theorem run_ofText (text : String) (options : Options) (requests : List Request) :
    let s := ((ofText text options).run requests).2
    let i := s.position.index
    let cs := itemsBefore text i
    s.next.1 = .ok (item text i) ∧ s.next.2.position.index = i + 1 ∧
      s.position.line = lineOf cs ∧ s.position.column = columnOf cs ∧
      (s.cursor.pending = none ∧ s.previous = cs.getLast?.getD endMark ∧
          s.atEnd = decide (cs.getLast? = some endMark) ∨
        s.cursor.pending = some (item text i) ∧ s.previous = item text i ∧ s.atEnd = false) := by
  intro s i cs
  have h : Tracks text s := (tracking text).run requests (ofText_tracks text options)
  obtain ⟨hnext, -, hindex, -⟩ := next_tracks h
  obtain ⟨hlines, hshows⟩ := h.stands.shows
  refine ⟨hnext, hindex, ?_, ?_, hshows⟩
  · calc s.position.line = (Lines.after cs).line := congrArg Lines.line hlines
      _ = lineOf cs := Lines.after_line cs
  · calc s.position.column = (Lines.after cs).column := congrArg Lines.column hlines
      _ = columnOf cs := Lines.after_column cs

end Scanner

end LaxJson
