import LaxJson.Literal

/-!
# LaxJson.Proofs.Value.Nesting

How deep the arrays and objects of a value go.
-/

namespace LaxJson
namespace Value

mutual

/-- The most containers that a part of the value lies in, itself counted. -/
def nesting : Value → Nat
  | .null => 0
  | .boolean _ => 0
  | .integer _ => 0
  | .decimal _ => 0
  | .text _ => 0
  | .array vs => nestingItems vs + 1
  | .object ms => nestingMembers ms + 1

def nestingItems : List Value → Nat
  | [] => 0
  | v :: vs => max (nesting v) (nestingItems vs)

def nestingMembers : List (String × Value) → Nat
  | [] => 0
  | (_, v) :: ms => max (nesting v) (nestingMembers ms)

end

theorem nestingItems_le {vs : List Value} {n : Nat} :
    nestingItems vs ≤ n ↔ ∀ v ∈ vs, v.nesting ≤ n := by
  induction vs with
  | nil => simp [nestingItems]
  | cons v vs ih => rw [nestingItems, Nat.max_le, ih, List.forall_mem_cons]

theorem nestingMembers_le {ms : List (String × Value)} {n : Nat} :
    nestingMembers ms ≤ n ↔ ∀ m ∈ ms, m.2.nesting ≤ n := by
  induction ms with
  | nil => simp [nestingMembers]
  | cons m ms ih => rw [nestingMembers, Nat.max_le, ih, List.forall_mem_cons]

end Value

/-- An unquoted text never means a container. -/
theorem Literal.nesting_value (text : String) : (Literal.value text).nesting = 0 := by
  have hnumber : ∀ v, number? text.toList = some v → v.nesting = 0 := by
    intro v hv
    simp only [number?] at hv
    split at hv
    · cases hv
    split at hv
    · obtain ⟨x, -, rfl⟩ := Option.map_eq_some_iff.mp hv
      rfl
    · obtain ⟨n, -, rfl⟩ := Option.map_eq_some_iff.mp hv
      rfl
  simp only [value]
  split
  · rfl
  split
  · rfl
  split
  · rfl
  cases hn : number? text.toList with
  | none => rfl
  | some v => exact hnumber v hn

end LaxJson
