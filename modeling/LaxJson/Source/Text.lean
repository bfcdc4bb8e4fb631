import LaxJson.Source

/-!
# LaxJson.Source.Text

A text as a source of characters. Position and mark are byte offsets into the text, so marking,
resetting and asking for the rest of the text cost nothing until the rest is looked at. The limit
of a mark is ignored: the whole text stays available.
-/

namespace LaxJson

structure TextSource where
  text : String
  offset : String.Pos.Raw
  marked : Option String.Pos.Raw

namespace TextSource

def ofText (text : String) : TextSource := ⟨text, 0, none⟩

/-- The part of the text that has not been read. -/
def remaining (s : TextSource) : String := s.offset.extract s.text s.text.rawEndPos

/-- A read past the character at the offset moves on by that character's UTF-8 length. -/
def read (s : TextSource) : Except SourceError (Option Char) × TextSource :=
  if s.offset.atEnd s.text then
    (.ok none, s)
  else
    let c := s.offset.get s.text
    (.ok (some c), { s with offset := s.offset + c })

def reset (s : TextSource) : Except SourceError Unit × TextSource :=
  match s.marked with
  | some offset => (.ok (), { s with offset := offset })
  | none => (.error .notMarked, s)

instance : CharSource TextSource where
  read := read
  mark s _ := (.ok (), { s with marked := some s.offset })
  reset := reset
  unmark s := { s with marked := none }

/-- Bytes of the text at or after the offset. -/
def size (s : TextSource) : Nat := s.text.utf8ByteSize - s.offset.byteIdx

theorem read_some {s s' : TextSource} {c : Char} (h : s.read = (.ok (some c), s')) :
    s.offset.byteIdx < s.text.utf8ByteSize ∧ s' = { s with offset := s.offset + c } := by
  unfold read at h
  split at h
  · cases h
  · rename_i hend
    cases h
    refine ⟨?_, rfl⟩
    simpa [String.Pos.Raw.atEnd, String.Pos.Raw.le_iff] using hend

theorem read_none {s s' : TextSource} (h : s.read = (.ok none, s')) : s' = s := by
  unfold read at h
  split at h <;> cases h
  rfl

instance : FiniteSource TextSource where
  size := size
  size_read_some := by
    intro s s' c h
    obtain ⟨hlt, rfl⟩ := read_some h
    have := c.utf8Size_pos
    simp only [size, String.Pos.Raw.byteIdx_add_char]
    omega
  size_read_none h := Nat.le_of_eq (congrArg size (read_none h))

end TextSource

end LaxJson
