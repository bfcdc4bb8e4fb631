import LaxJson.Proofs.Value.Members
import LaxJson.Proofs.Value.Nesting

/-!
# LaxJson.Proofs.Value.Prune

Values without the null members of their objects. `prune` leaves these members out at every depth;
items of an array that are null stay. `allMembers` lists the members of all objects of a value, at
whatever depth.

* `pruneMembers_put`: pruning members after a new one was put, and putting it into pruned members.
* `noNulls_array`, `noNulls_object`: where null members can be in an array or object.
-/

namespace LaxJson
namespace Value

mutual

/-- The value without the null members of its objects, at every depth. -/
def prune : Value → Value
  | .null => .null
  | .boolean b => .boolean b
  | .integer n => .integer n
  | .decimal x => .decimal x
  | .text s => .text s
  | .array vs => .array (pruneItems vs)
  | .object ms => .object (pruneMembers ms)

def pruneItems : List Value → List Value
  | [] => []
  | v :: vs => prune v :: pruneItems vs

def pruneMembers : List (String × Value) → List (String × Value)
  | [] => []
  | (key, v) :: ms => if v = .null then pruneMembers ms else (key, prune v) :: pruneMembers ms

end

mutual

/-- The members of the objects in the value, at every depth. -/
def allMembers : Value → List (String × Value)
  | .null => []
  | .boolean _ => []
  | .integer _ => []
  | .decimal _ => []
  | .text _ => []
  | .array vs => allMembersOfItems vs
  | .object ms => allMembersOfMembers ms

def allMembersOfItems : List Value → List (String × Value)
  | [] => []
  | v :: vs => allMembers v ++ allMembersOfItems vs

def allMembersOfMembers : List (String × Value) → List (String × Value)
  | [] => []
  | (key, v) :: ms => (key, v) :: (allMembers v ++ allMembersOfMembers ms)

end

/-! ## Pruning -/

theorem prune_eq_null {v : Value} : v.prune = .null ↔ v = .null := by
  cases v <;> simp [prune]

theorem prune_of_nesting {v : Value} (h : v.nesting = 0) : v.prune = v := by
  cases v with
  | array vs | object ms => simp only [nesting, Nat.add_one_ne_zero] at h
  | null | boolean b | integer n | decimal x | text s => rfl

theorem pruneItems_of_forall₂ {vs vs' : List Value} {P : Prop}
    (h : List.Forall₂ (fun v v' => P → v' = v.prune) vs vs') (hP : P) : vs' = pruneItems vs := by
  induction h with
  | nil => rfl
  | cons hv _ ih => rw [hv hP, ih, pruneItems]

theorem pruneMembers_append (ms ms' : List (String × Value)) :
    pruneMembers (ms ++ ms') = pruneMembers ms ++ pruneMembers ms' := by
  induction ms with
  | nil => rfl
  | cons m ms ih =>
    obtain ⟨key, v⟩ := m
    rw [List.cons_append, pruneMembers, pruneMembers, ih]
    split <;> rfl

/-- Pruning brings no new keys. -/
theorem key_of_pruneMembers {ms : List (String × Value)} {m : String × Value}
    (h : m ∈ pruneMembers ms) : ∃ m' ∈ ms, m'.1 = m.1 := by
  induction ms with
  | nil => cases h
  | cons m' ms ih =>
    obtain ⟨key, v⟩ := m'
    rw [pruneMembers] at h
    split at h
    · obtain ⟨m', hm', hkey⟩ := ih h
      exact ⟨m', List.mem_cons_of_mem _ hm', hkey⟩
    · rcases List.mem_cons.mp h with rfl | h
      · exact ⟨_, List.mem_cons_self, rfl⟩
      · obtain ⟨m', hm', hkey⟩ := ih h
        exact ⟨m', List.mem_cons_of_mem _ hm', hkey⟩

theorem not_contains_pruneMembers {ms : Members Value} {key : String}
    (h : ms.contains key = false) : Members.contains (pruneMembers ms) key = false := by
  rw [← Members.forall_ne_iff] at h ⊢
  intro m hm
  obtain ⟨m', hm', hkey⟩ := key_of_pruneMembers hm
  exact hkey ▸ h m' hm'

/-- A member under a new key may be put before or after pruning; a null is not put after. -/
theorem pruneMembers_put {ms : Members Value} {key : String} (h : ms.contains key = false)
    (v : Value) : pruneMembers (ms.put key v) =
      if v = .null then pruneMembers ms else Members.put key v.prune (pruneMembers ms) := by
  rw [Members.put_of_not_contains h, pruneMembers_append, pruneMembers, pruneMembers]
  split
  · rw [List.append_nil]
  · rw [Members.put_of_not_contains (not_contains_pruneMembers h)]

/-! ## Values without null members -/

/-- No member of an object in the value is null. -/
def NoNulls (v : Value) : Prop := ∀ m ∈ v.allMembers, m.2 ≠ .null

theorem noNulls_of_nesting {v : Value} (h : v.nesting = 0) : v.NoNulls := by
  cases v with
  | array vs | object ms => simp only [nesting, Nat.add_one_ne_zero] at h
  | null | boolean b | integer n | decimal x | text s => exact List.forall_mem_nil _

theorem noNulls_array {vs : List Value} : NoNulls (.array vs) ↔ ∀ v ∈ vs, v.NoNulls := by
  induction vs with
  | nil => simp [NoNulls, allMembers, allMembersOfItems]
  | cons v vs ih =>
    simp only [NoNulls, allMembers, allMembersOfItems, List.forall_mem_append] at ih ⊢
    rw [ih, List.forall_mem_cons]

theorem noNulls_object {ms : List (String × Value)} :
    NoNulls (.object ms) ↔ ∀ m ∈ ms, m.2 ≠ .null ∧ m.2.NoNulls := by
  induction ms with
  | nil => simp [NoNulls, allMembers, allMembersOfMembers]
  | cons m ms ih =>
    simp only [NoNulls, allMembers, allMembersOfMembers, List.forall_mem_append,
      List.forall_mem_cons] at ih ⊢
    rw [ih, and_assoc]

end Value
end LaxJson
