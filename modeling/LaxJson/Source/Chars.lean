import LaxJson.Source

/-!
# LaxJson.Source.Chars

A list of characters as a source, without mark and reset.
-/

namespace LaxJson

structure CharsSource where
  chars : List Char

namespace CharsSource

def ofText (text : String) : CharsSource := ⟨text.toList⟩

def read : CharsSource → Except SourceError (Option Char) × CharsSource
  | ⟨[]⟩ => (.ok none, ⟨[]⟩)
  | ⟨c :: rest⟩ => (.ok (some c), ⟨rest⟩)

theorem read_eq (s : CharsSource) : s.read = (.ok s.chars.head?, ⟨s.chars.tail⟩) := by
  rcases s with ⟨_ | ⟨c, rest⟩⟩ <;> rfl

instance : CharSource CharsSource where
  read := read

instance : FiniteSource CharsSource where
  size s := s.chars.length
  size_read_some := by
    rintro ⟨_ | ⟨c, rest⟩⟩ s' c' h <;> cases h
    exact Nat.lt_succ_self _
  size_read_none := by
    rintro ⟨_ | ⟨c, rest⟩⟩ s' h <;> cases h
    exact Nat.le_refl _

end CharsSource

end LaxJson
