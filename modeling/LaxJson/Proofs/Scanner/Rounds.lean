import LaxJson.Proofs.Scanner.Unfolding
import Mathlib.Logic.Function.Iterate

/-!
# LaxJson.Proofs.Scanner.Rounds

How many rounds of the recursion there are. Take any routines at all and unfold them `n` times: what
this does from a scanner with little enough left to read is what the operations of the scanner do, so
that the routines that one began with are never called there.

* `Routines.Agree`: how little is little enough for `n` rounds. Nothing but what is left to read
  counts, not the options and not the number of open containers.
* `Routines.Agree.unfold`: what is called in a round has less left to read, or is called by a
  function further out, which the bounds allow for.
* `Routines.agree_iterate`: so much for any number of rounds.
-/

namespace LaxJson
namespace Scanner

open Operation

section Congruence

variable {σ α β : Type}

/-- Steps that do the same, where what follows need only agree on the answers that are given. -/
theorem andThen_congr {p p' : Operation σ α} {q q' : α → Operation σ β} {s : Scanner σ}
    (hp : p s = p' s) (hrest : ∀ a s1, p' s = (.ok a, s1) → q a s1 = q' a s1) :
    p.andThen q s = p'.andThen q' s := by
  rcases hs : p' s with ⟨e | a, s1⟩
  · rw [andThen_error (hp.trans hs), andThen_error hs]
  · rw [andThen_ok (hp.trans hs), andThen_ok hs]
    exact hrest a s1 hs

theorem nested_congr {k : Container} {p p' : Operation σ α} {s : Scanner σ}
    (h : p s.enter = p' s.enter) : nested k p s = nested k p' s := by
  rw [nested, nested, h]

theorem adding_congr {ms : Members Value} {key : String}
    {p p' : (Value → Members Value) → Operation σ α} {s : Scanner σ}
    (h : ∀ add, p add s = p' add s) : adding ms key p s = adding ms key p' s := by
  rw [adding, adding, h]

end Congruence

variable {σ : Type} [CharSource σ] [FiniteSource σ]

/-- The routines do the same wherever little enough is left to read. A loop takes a round for each
character. The reading functions take three, one for each that the next may go through: members and
items call values, which call containers, and only these call further in after a character. -/
structure Routines.Agree (n : Nat) (r r' : Routines σ) : Prop where
  nextSolid : ∀ s : Scanner σ, s.unread < n → r.nextSolid s = r'.nextSolid s
  quotedFrom : ∀ quote built, ∀ s : Scanner σ, s.unread < n →
    r.quotedFrom quote built s = r'.quotedFrom quote built s
  fieldFrom : ∀ isDelimiter text, ∀ s : Scanner σ, s.unread < n →
    r.fieldFrom isDelimiter text s = r'.fieldFrom isDelimiter text s
  bareFrom : ∀ text, ∀ s : Scanner σ, s.unread < n → r.bareFrom text s = r'.bareFrom text s
  seekFrom : ∀ target origin, ∀ s : Scanner σ, s.unread < n →
    r.seekFrom target origin s = r'.seekFrom target origin s
  value : ∀ s : Scanner σ, 3 * s.unread + 2 < n → r.value s = r'.value s
  object : ∀ s : Scanner σ, 3 * s.unread + 1 < n → r.object s = r'.object s
  members : ∀ ms, ∀ s : Scanner σ, 3 * s.unread + 3 < n → r.members ms s = r'.members ms s
  array : ∀ s : Scanner σ, 3 * s.unread + 1 < n → r.array s = r'.array s
  items : ∀ before, ∀ s : Scanner σ, 3 * s.unread + 3 < n → r.items before s = r'.items before s

theorem Routines.agree_zero (r r' : Routines σ) : Agree 0 r r' := by
  constructor <;> intros <;> contradiction

namespace Routines.Agree

variable {n : Nat} {r : Routines σ} (h : Agree n r (routines σ)) {s : Scanner σ}

include h

/-! ## Punctuation -/

theorem opening (hs : s.unread < n) (k : Container) : r.opening k s = s.opening k :=
  (andThen_congr (h.nextSolid s hs) fun _ _ _ => rfl).trans (congrFun (routines_opening k) s)

theorem closes (hs : s.unread < n) (k : Container) : r.closes k s = s.closes k :=
  (andThen_congr (h.nextSolid s hs) fun _ _ _ => rfl).trans (congrFun (routines_closes k) s)

theorem colon (hs : s.unread < n) : r.colon s = s.colon :=
  (andThen_congr (h.nextSolid s hs) fun _ _ _ => rfl).trans (congrFun routines_colon s)

theorem emptySlot (hs : s.unread < n) : r.emptySlot s = s.emptySlot :=
  (andThen_congr (h.nextSolid s hs) fun _ _ _ => rfl).trans (congrFun routines_emptySlot s)

theorem separator (hs : s.unread < n) (k : Container) : r.separator k s = s.separator k := by
  rw [← congrFun (routines_separator k) s]
  refine andThen_congr (h.nextSolid s hs) fun c s1 hn => ?_
  have hle : s1.unread ≤ s.unread := (nextSolid_took (s := s) hn).le
  split
  · rw [routines_closes]
    exact h.closes (Nat.lt_of_le_of_lt hle hs) k
  · rfl

theorem nextKey (hs : s.unread < n) : r.nextKey s = s.nextKey := by
  rw [← routines_nextKey]
  refine andThen_congr (h.nextSolid s hs) fun c s1 hn => ?_
  have htook : Took s c s1 := nextSolid_took (s := s) hn
  split
  · rfl
  split
  · rfl
  split
  · exact andThen_congr (h.quotedFrom c .empty s1 (Nat.lt_of_le_of_lt htook.le hs)) fun _ _ _ => rfl
  split
  · rfl
  refine andThen_congr rfl fun _ s2 hb => ?_
  have hle := unread_stepBack htook hb
  exact andThen_congr (h.bareFrom [] s2 (Nat.lt_of_le_of_lt hle hs)) fun _ _ _ => rfl

/-! ## Members and items -/

theorem afterKey (ms : Members Value) (key : String) (hs : 3 * s.unread + 3 < n) :
    r.afterKey ms key s = Scanner.afterKey ms key s := by
  rw [← routines_afterKey]
  refine andThen_congr ?_ fun _ s1 hc => adding_congr fun add => ?_
  · exact (h.colon (by omega)).trans (congrFun routines_colon s).symm
  rw [routines_colon] at hc
  have hle : s1.unread ≤ s.unread := unread_colon hc
  refine andThen_congr (h.value s1 (by omega)) fun v s2 hv => ?_
  have hlt : s2.unread < s1.unread := unread_value hv
  rw [routines_separator]
  refine andThen_congr (h.separator (by omega) .object) fun closed s3 hsep => ?_
  have hlt' : s3.unread < s2.unread := unread_separator hsep
  split
  · rfl
  · exact h.members _ s3 (by omega)

theorem afterSlot (before : List Value) (v : Value) (hs : 3 * s.unread < n) :
    r.afterSlot before v s = Scanner.afterSlot before v s := by
  refine andThen_congr (h.separator (by omega) .array) fun closed s1 hsep => ?_
  have hlt : s1.unread < s.unread := unread_separator hsep
  split
  · rfl
  · exact h.items _ s1 (by omega)

/-! ## One round -/

theorem value_unfold (hs : 3 * s.unread + 2 < n + 1) :
    r.unfold.value s = (routines σ).unfold.value s := by
  refine andThen_congr (h.nextSolid s (by omega)) fun c s1 hn => ?_
  have htook : Took s c s1 := nextSolid_took hn
  have hle := htook.le
  split
  · exact andThen_congr (h.quotedFrom c .empty s1 (by omega)) fun _ _ _ => rfl
  refine andThen_congr rfl fun _ s2 hb => ?_
  have hle2 := unread_stepBack htook hb
  split
  · exact h.object s2 (by omega)
  split
  · exact h.array s2 (by omega)
  · exact andThen_congr (h.bareFrom [] s2 (by omega)) fun _ _ _ => rfl

theorem object_unfold (hs : 3 * s.unread + 1 < n + 1) :
    r.unfold.object s = (routines σ).unfold.object s := by
  have hsame : s.enter.unread = s.unread := rfl
  refine nested_congr (andThen_congr ?_ fun _ s1 ho => ?_)
  · rw [routines_opening]
    exact h.opening (by omega) .object
  rw [routines_opening] at ho
  have hlt : s1.unread < s.unread := unread_opening (s := s.enter) ho
  exact andThen_congr (h.members [] s1 (by omega)) fun _ _ _ => rfl

theorem array_unfold (hs : 3 * s.unread + 1 < n + 1) :
    r.unfold.array s = (routines σ).unfold.array s := by
  have hsame : s.enter.unread = s.unread := rfl
  refine nested_congr (andThen_congr ?_ fun _ s1 ho => andThen_congr ?_ fun closed s2 hc => ?_)
  · rw [routines_opening]
    exact h.opening (by omega) .array
  all_goals
    rw [routines_opening] at ho
    have hlt : s1.unread < s.unread := unread_opening (s := s.enter) ho
  · rw [routines_closes]
    exact h.closes (by omega) .array
  rw [routines_closes] at hc
  have hle : s2.unread ≤ s1.unread := unread_closes hc
  split
  · rfl
  · exact andThen_congr (h.items [] s2 (by omega)) fun _ _ _ => rfl

theorem members_unfold (ms : Members Value) (hs : 3 * s.unread + 3 < n + 1) :
    r.unfold.members ms s = (routines σ).unfold.members ms s := by
  refine andThen_congr ?_ fun key s1 hk => ?_
  · rw [routines_nextKey]
    exact h.nextKey (by omega)
  rw [routines_nextKey] at hk
  have hlt : s1.unread < s.unread := unread_nextKey hk
  cases key with
  | none => rfl
  | some key =>
    exact (h.afterKey ms key (by omega)).trans (congrFun (routines_afterKey ms key) s1).symm

theorem items_unfold (before : List Value) (hs : 3 * s.unread + 3 < n + 1) :
    r.unfold.items before s = (routines σ).unfold.items before s := by
  refine andThen_congr ?_ fun empty s1 he => ?_
  · rw [routines_emptySlot]
    exact h.emptySlot (by omega)
  rw [routines_emptySlot] at he
  have hle : s1.unread ≤ s.unread := unread_emptySlot he
  rw [routines_afterSlot]
  split
  · exact h.afterSlot before .null (by omega)
  · refine andThen_congr (h.value s1 (by omega)) fun v s2 hv => ?_
    have hlt : s2.unread < s1.unread := unread_value hv
    exact h.afterSlot before v (by omega)

theorem quotedFrom_unfold (quote : Char) (built : Utf16.Builder) (hs : s.unread < n + 1) :
    r.unfold.quotedFrom quote built s = (routines σ).unfold.quotedFrom quote built s := by
  refine andThen_congr rfl fun c s1 hn => ?_
  split
  · rfl
  have hlt := (next_took hn).lt ‹_›
  split
  · refine andThen_congr rfl fun x s2 he => ?_
    have hle := unread_escape he
    exact h.quotedFrom quote _ s2 (by omega)
  split
  · rfl
  · exact h.quotedFrom quote _ s1 (by omega)

theorem fieldFrom_unfold (isDelimiter : Char → Bool) (text : List Char) (hs : s.unread < n + 1) :
    r.unfold.fieldFrom isDelimiter text s = (routines σ).unfold.fieldFrom isDelimiter text s := by
  refine andThen_congr rfl fun c s1 hn => ?_
  split
  · rfl
  have hlt := (next_took hn).lt ‹_›
  split
  · rfl
  · exact h.fieldFrom isDelimiter _ s1 (by omega)

theorem bareFrom_unfold (text : List Char) (hs : s.unread < n + 1) :
    r.unfold.bareFrom text s = (routines σ).unfold.bareFrom text s := by
  refine andThen_congr rfl fun c s1 hn => ?_
  split
  · rfl
  · rename_i hc
    have hlt := (next_took hn).lt (by rintro rfl; exact hc rfl)
    exact h.bareFrom _ s1 (by omega)

theorem seekFrom_unfold (target : Char) (origin : Cursor) (hs : s.unread < n + 1) :
    r.unfold.seekFrom target origin s = (routines σ).unfold.seekFrom target origin s := by
  refine andThen_congr rfl fun c s1 hn => ?_
  split
  · rfl
  have hlt := (next_took hn).lt ‹_›
  split
  · rfl
  · exact h.seekFrom target origin s1 (by omega)

theorem nextSolid_unfold (hs : s.unread < n + 1) :
    r.unfold.nextSolid s = (routines σ).unfold.nextSolid s := by
  refine andThen_congr rfl fun c s1 hn => ?_
  split
  · rfl
  · rename_i hc
    have hlt := (next_took hn).lt fun hmark => hc (.inl hmark)
    exact h.nextSolid s1 (by omega)

/-- One round more is enough for a little more to read. -/
theorem unfold : Agree (n + 1) r.unfold (routines σ) := by
  rw [← unfold_routines]
  exact
    { nextSolid := fun _ => h.nextSolid_unfold
      quotedFrom := fun quote built _ => h.quotedFrom_unfold quote built
      fieldFrom := fun isDelimiter text _ => h.fieldFrom_unfold isDelimiter text
      bareFrom := fun text _ => h.bareFrom_unfold text
      seekFrom := fun target origin _ => h.seekFrom_unfold target origin
      value := fun _ => h.value_unfold
      object := fun _ => h.object_unfold
      members := fun ms _ => h.members_unfold ms
      array := fun _ => h.array_unfold
      items := fun before _ => h.items_unfold before }

/-! ## What is requested -/

/-- A search begins with no more left to read, if marking the source adds nothing. -/
theorem seek (hs : s.unread < n)
    (hmark : FiniteSource.size (CharSource.mark s.source seekLimit).2 ≤ FiniteSource.size s.source)
    (target : Char) : r.seek target s = s.seek target := by
  rw [Routines.seek, Scanner.seek]
  rcases hm : CharSource.mark s.source seekLimit with ⟨_ | _, source⟩
  · rfl
  · rw [hm] at hmark
    refine h.seekFrom target s.cursor { s with source := source } (Nat.lt_of_le_of_lt ?_ hs)
    exact Nat.add_le_add_right hmark _

theorem perform (hs : 3 * s.unread + 2 < n)
    (hmark : FiniteSource.size (CharSource.mark s.source seekLimit).2 ≤ FiniteSource.size s.source)
    (request : Request) : r.perform s request = s.perform request := by
  have hloop : s.unread < n := by omega
  cases request with
  | next => rfl
  | stepBack => rfl
  | hasNext => rfl
  | expect c => rfl
  | take k => rfl
  | nextSolid => exact congrArg (reply .char) (h.nextSolid s hloop)
  | quoted quote => exact congrArg (reply .text) (h.quotedFrom quote .empty s hloop)
  | fieldTo delimiter => exact congrArg (reply .text) (h.fieldFrom _ [] s hloop)
  | fieldToAny delimiters => exact congrArg (reply .text) (h.fieldFrom _ [] s hloop)
  | value => exact congrArg (reply .value) (h.value s hs)
  | seek target => exact congrArg (reply .char) (h.seek hloop hmark target)

theorem document (hs : 3 * s.unread + 2 < n) : r.document s = s.document := by
  rw [← routines_document]
  refine andThen_congr (h.value s hs) fun v s1 hv => ?_
  have hlt : s1.unread < s.unread := unread_value hv
  exact andThen_congr (h.nextSolid s1 (by omega)) fun _ _ _ => rfl

end Routines.Agree

/-- Enough rounds, from whatever one begins with. -/
theorem Routines.agree_iterate (r : Routines σ) (n : Nat) :
    Agree n (unfold^[n] r) (routines σ) := by
  induction n with
  | zero => exact agree_zero _ _
  | succ n ih =>
    rw [Function.iterate_succ_apply']
    exact ih.unfold

end Scanner

end LaxJson
