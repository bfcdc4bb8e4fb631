import LaxJson.Document

/-!
# LaxJson.Proofs.Scanner.Recursion

Induction along the reading of values. Values, objects, members, arrays and items are read by five
functions that call each other on scanners with less left to read; `reading_induction` is the
induction that follows these calls. Where a property concerns every reading function, it is proved
once per function, from the property of the functions it calls.
-/

namespace LaxJson
namespace Scanner

variable {σ : Type} [CharSource σ] [FiniteSource σ]

/-- A property of each of the five reading functions, at every scanner. -/
structure Everywhere (onValue onObject onArray : Scanner σ → Prop)
    (onMembers : Members Value → Scanner σ → Prop) (onItems : List Value → Scanner σ → Prop) :
    Prop where
  value : ∀ s, onValue s
  object : ∀ s, onObject s
  array : ∀ s, onArray s
  members : ∀ ms s, onMembers ms s
  items : ∀ before s, onItems before s

/-- The induction along the calls. A value calls its object or array with no more left to read, and
a container what it contains with less; the first item of an array may stand where the array's
items start. -/
theorem reading_induction {onValue onObject onArray : Scanner σ → Prop}
    {onMembers : Members Value → Scanner σ → Prop} {onItems : List Value → Scanner σ → Prop}
    (value : ∀ s, (∀ t, t.unread ≤ s.unread → onObject t) → (∀ t, t.unread ≤ s.unread → onArray t) →
      onValue s)
    (object : ∀ s, (∀ ms t, t.unread < s.unread → onMembers ms t) → onObject s)
    (array : ∀ s, (∀ before t, t.unread < s.unread → onItems before t) → onArray s)
    (members : ∀ ms s, (∀ t, t.unread < s.unread → onValue t) →
      (∀ ms' t, t.unread < s.unread → onMembers ms' t) → onMembers ms s)
    (items : ∀ before s, (∀ t, t.unread ≤ s.unread → onValue t) →
      (∀ before' t, t.unread < s.unread → onItems before' t) → onItems before s) :
    Everywhere onValue onObject onArray onMembers onItems := by
  -- the five properties together, at all scanners with at most `n` left to read
  have all : ∀ n, (∀ s : Scanner σ, s.unread ≤ n → onValue s) ∧
      (∀ ms, ∀ s : Scanner σ, s.unread ≤ n → onMembers ms s) ∧
      (∀ before, ∀ s : Scanner σ, s.unread ≤ n → onItems before s) ∧
      (∀ s : Scanner σ, s.unread ≤ n → onObject s) ∧
      (∀ s : Scanner σ, s.unread ≤ n → onArray s) := by
    intro n
    induction n using Nat.strongRecOn with
    | ind n ih =>
      have hmembers : ∀ ms, ∀ s : Scanner σ, s.unread < n → onMembers ms s := by
        intro ms s hs
        exact (ih s.unread hs).2.1 ms s (Nat.le_refl _)
      have hitems : ∀ before, ∀ s : Scanner σ, s.unread < n → onItems before s := by
        intro before s hs
        exact (ih s.unread hs).2.2.1 before s (Nat.le_refl _)
      have hobject : ∀ s : Scanner σ, s.unread ≤ n → onObject s := by
        intro s hs
        apply object
        intro ms t ht
        exact hmembers ms t (Nat.lt_of_lt_of_le ht hs)
      have harray : ∀ s : Scanner σ, s.unread ≤ n → onArray s := by
        intro s hs
        apply array
        intro before t ht
        exact hitems before t (Nat.lt_of_lt_of_le ht hs)
      have hvalue : ∀ s : Scanner σ, s.unread ≤ n → onValue s := by
        intro s hs
        apply value
        · intro t ht
          exact hobject t (Nat.le_trans ht hs)
        · intro t ht
          exact harray t (Nat.le_trans ht hs)
      refine ⟨hvalue, ?_, ?_, hobject, harray⟩
      · intro ms s hs
        apply members
        · intro t ht
          exact hvalue t (Nat.le_of_lt (Nat.lt_of_lt_of_le ht hs))
        · intro ms' t ht
          exact hmembers ms' t (Nat.lt_of_lt_of_le ht hs)
      · intro before s hs
        apply items
        · intro t ht
          exact hvalue t (Nat.le_trans ht hs)
        · intro before' t ht
          exact hitems before' t (Nat.lt_of_lt_of_le ht hs)
  constructor
  · intro s
    exact (all s.unread).1 s (Nat.le_refl _)
  · intro s
    exact (all s.unread).2.2.2.1 s (Nat.le_refl _)
  · intro s
    exact (all s.unread).2.2.2.2 s (Nat.le_refl _)
  · intro ms s
    exact (all s.unread).2.1 ms s (Nat.le_refl _)
  · intro before s
    exact (all s.unread).2.2.1 before s (Nat.le_refl _)

end Scanner

end LaxJson
