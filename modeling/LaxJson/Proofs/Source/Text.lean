import LaxJson.Source.Text
import Mathlib.Data.String.Basic

/-!
# LaxJson.Proofs.Source.Text

A text source by characters: its offset is always that of some character of the text, counted from
the start, and one read hands out that character and moves on to the next. What remains is the rest
of the characters (`remaining_place`).
-/

namespace LaxJson
namespace TextSource

/-- The offset of the character `n` of a text, and past the last one the end. -/
def place (text : String) (n : Nat) : String.Pos.Raw := ⟨String.utf8Len (text.toList.take n)⟩

theorem place_zero (text : String) : place text 0 = 0 := rfl

theorem split_at (text : String) (n : Nat) :
    text = String.ofList (text.toList.take n ++ text.toList.drop n) := by
  rw [List.take_append_drop, String.ofList_toList]

theorem atEnd_place (text : String) (n : Nat) :
    (place text n).atEnd text = true ↔ text.toList.length ≤ n := by
  have h := String.atEnd_of_valid (text.toList.take n) (text.toList.drop n)
  rw [← split_at, List.drop_eq_nil_iff] at h
  exact h

theorem get_place {text : String} {n : Nat} {c : Char} (h : text.toList[n]? = some c) :
    (place text n).get text = c := by
  obtain ⟨hlt, hc⟩ := List.getElem?_eq_some_iff.mp h
  have hget := String.get_of_valid (text.toList.take n) (text.toList.drop n)
  rw [← split_at, List.drop_eq_getElem_cons hlt, hc] at hget
  exact hget

theorem place_succ {text : String} {n : Nat} {c : Char} (h : text.toList[n]? = some c) :
    place text n + c = place text (n + 1) := by
  apply String.Pos.Raw.ext
  rw [String.Pos.Raw.byteIdx_add_char]
  simp only [place, List.take_add_one, h, Option.toList_some, String.utf8Len_append,
    String.utf8Len_cons, String.utf8Len_nil]
  omega

theorem place_of_length_le {text : String} {n : Nat} (h : text.toList.length ≤ n) :
    place text (n + 1) = place text n := by
  rw [place, place, List.take_of_length_le h, List.take_of_length_le (by omega)]

/-- A read at the character `n` answers it and leaves the source at the next one. -/
theorem read_place {s : TextSource} {n : Nat} (h : s.offset = place s.text n) :
    s.read = (.ok s.text.toList[n]?, { s with offset := place s.text (n + 1) }) := by
  obtain ⟨text, offset, marked⟩ := s
  simp only at h
  subst h
  simp only [read]
  cases hc : text.toList[n]? with
  | none =>
    have hle := List.getElem?_eq_none_iff.mp hc
    rw [if_pos ((atEnd_place text n).mpr hle), place_of_length_le hle]
  | some c =>
    have hlt : ¬ (place text n).atEnd text = true := by
      rw [atEnd_place, Nat.not_le]
      exact (List.getElem?_eq_some_iff.mp hc).1
    rw [if_neg hlt, get_place hc, place_succ hc]

theorem remaining_place {s : TextSource} {n : Nat} (h : s.offset = place s.text n) :
    s.remaining = String.ofList (s.text.toList.drop n) := by
  obtain ⟨text, offset, marked⟩ := s
  simp only at h
  subst h
  have hend : text.rawEndPos = ⟨String.utf8Len text.toList⟩ := by
    rw [← String.rawEndPos_ofList, String.ofList_toList]
  have hextract := String.extract_of_valid (text.toList.take n) (text.toList.drop n) []
  rw [List.append_nil, ← split_at, ← String.utf8Len_append, List.take_append_drop,
    ← hend] at hextract
  exact hextract

theorem reset_marked {s : TextSource} {offset : String.Pos.Raw} (h : s.marked = some offset) :
    s.reset = (.ok (), { s with offset := offset }) := by
  simp only [reset, h]

end TextSource

end LaxJson
