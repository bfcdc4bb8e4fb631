import LaxJson.Proofs.Grammar.Syntax

/-!
# LaxJson.Proofs.Grammar.Values

What holds of the values that phrases mean. `Derives.holds` is the induction on derivations for a
property of values, with the room that is left for containers: texts and literals have it, and a
container has it if what is in it does.
-/

namespace LaxJson
namespace Grammar

theorem mem_slotItems {v : Value} {slots : List (Option Value)} (h : v ∈ slotItems slots) :
    v = .null ∨ some v ∈ slots := by
  fun_induction slotItems slots with
  | case1 => cases h
  | case2 => cases h
  | case3 slot rest _ ih =>
    rcases List.mem_cons.mp h with rfl | h
    · cases slot with
      | none => exact .inl rfl
      | some v => exact .inr List.mem_cons_self
    · rcases ih h with hnull | hmem
      · exact .inl hnull
      · exact .inr (List.mem_cons_of_mem _ hmem)

theorem mem_of_objectMembers {o : Options} {ms : List (String × Value)} {m : String × Value}
    (h : m ∈ objectMembers o ms) : m ∈ ms := by
  have hmem := Members.mem_of_collect h
  split at hmem
  · exact List.mem_of_mem_filter hmem
  · exact hmem

theorem objectMembers_nil (o : Options) : objectMembers o [] = [] := by
  rw [objectMembers, List.filter_nil, ite_self]
  rfl

/-- The values of the phrase have the property. -/
def Phrase.Holds (P : Value → Prop) : Phrase → Prop
  | .value v => P v
  | .slot content => ∀ v, content = some v → P v
  | .slots contents => ∀ v, some v ∈ contents → P v
  | .member _ v => P v
  | .members ms => ∀ m ∈ ms, P m.2

theorem Derives.holds {o : Options} {P : Nat → Value → Prop}
    (htext : ∀ room s, P room (.text s)) (hliteral : ∀ room text, P room (Literal.value text))
    (hnull : ∀ room, P room .null)
    (harray : ∀ room vs, (∀ v ∈ vs, P room v) → P (room + 1) (.array vs))
    (hobject : ∀ room ms, (∀ m ∈ ms, P room m.2) → P (room + 1) (.object (objectMembers o ms)))
    {room : Nat} {phrase : Phrase} {w : List Char} (h : Derives o room phrase w) :
    phrase.Holds (P room) := by
  induction h with
  | quoted _ => exact htext _ _
  | literal _ => exact hliteral _ _
  | array _ _ _ ih =>
    refine harray _ _ fun v hv => ?_
    rcases mem_slotItems hv with rfl | hslot
    · exact hnull _
    · exact ih v hslot
  | emptyObject _ =>
    rw [Phrase.Holds, ← objectMembers_nil o]
    exact hobject _ [] nofun
  | object _ _ _ ih => exact hobject _ _ ih
  | emptySlot => exact nofun
  | fullSlot _ ih =>
    intro v hv
    cases hv
    exact ih
  | lastSlot _ ih =>
    intro v hv
    exact ih v (List.mem_singleton.mp hv).symm
  | moreSlots _ _ _ _ ih ihrest =>
    intro v hv
    rcases List.mem_cons.mp hv with hslot | hrest
    · exact ih v hslot.symm
    · exact ihrest v hrest
  | member _ _ _ _ ih => exact ih
  | lastMember _ ih | separated _ _ _ ih =>
    intro m hm
    rw [List.mem_singleton.mp hm]
    exact ih
  | moreMembers _ _ _ _ _ ih ihrest =>
    intro m hm
    rcases List.mem_cons.mp hm with rfl | hrest
    · exact ih
    · exact ihrest m hrest

end Grammar
end LaxJson
