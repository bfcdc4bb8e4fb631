import LaxJson.Proofs.Document.Sources
import LaxJson.Proofs.Grammar.Completeness

/-!
# LaxJson.Proofs.Document.Grammar

The texts that are parsed are those of the grammar, and a text is parsed as what it means.
-/

namespace LaxJson

open Grammar

/-- At the start of a text, all of it up to an end mark is left to read. -/
theorem Scanner.at_start (text : String) (o : Options) :
    At o 0 (untilEnd text.toList) (ofSource (CharsSource.mk text.toList) o) :=
  ⟨rfl, rfl, rfl⟩

/-- **The parser accepts its grammar, and nothing else.** With repeated keys allowed, a text is
parsed as a value just if the part of it before the first end mark derives that value. -/
theorem parse_eq_ok_iff (text : String) (o : Options) (ho : o.uniqueKeys = false) (v : Value) :
    parse text o = .ok v ↔ Document o (untilEnd text.toList) v := by
  rw [parse, Scanner.document_ofText]
  constructor
  · intro hv
    exact Scanner.document_sound (Scanner.at_start text o) (Prod.ext hv rfl)
  · intro hdocument
    exact Scanner.document_complete ho hdocument (Scanner.at_start text o)

/-- An empty slot, a literal with a blank after it, and text beyond the end mark. -/
theorem parse_eq_ok_iff_emptySlot :
    Document {} ['[', ',', 'x', ' ', ']'] (.array [.null, .text "x"]) ∧
      parse "[,x ]\x00:" {} = .ok (.array [.null, .text "x"]) := by
  have hliteral : Unquoted ['x'] :=
    ⟨⟨'x', rfl, by decide⟩, ⟨'x', rfl, by decide⟩, List.forall_mem_singleton.mpr (by decide)⟩
  have hx : Derives {} 127 (.value (.text "x")) ['x'] := .literal hliteral
  have hslots : Derives {} 127 (.slots [none, some (.text "x")]) [',', 'x'] :=
    .moreSlots .emptySlot .nil .nil (.lastSlot (.fullSlot hx))
  have hblank : Blanks [' '] := by decide
  have hdocument : Document {} ['[', ',', 'x', ' ', ']'] (.array [.null, .text "x"]) :=
    ⟨[], _, [], rfl, .nil, .array .nil hslots hblank, .nil⟩
  exact ⟨hdocument, (parse_eq_ok_iff "[,x ]\x00:" {} rfl _).mpr hdocument⟩

end LaxJson
