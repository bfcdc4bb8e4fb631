import LaxJson.Proofs.Scanner.Offers
import LaxJson.Proofs.Scanner.Stricter
import LaxJson.Proofs.Source.Metered
import LaxJson.Proofs.Value.Nesting
import LaxJson.Source.Script

/-!
# LaxJson.Proofs.Scanner.Balance

The count of open containers. It goes up where a container is entered and comes down on every way
out of it, a failure on any level included.

* `run_frame`: requests leave the options and the count as they were.
* `InProgress`: a call with the calls it was made from. `InProgress.balance`: the count is that of
  the containers among these, and never above the limit.
* `value_brackets`: where nothing is open, as many arrays are read inside each other as the limit
  allows.
* `run_balanced`: all of this holds after any requests, over any source.
-/

namespace LaxJson
namespace Scanner

variable {σ : Type} [CharSource σ] [FiniteSource σ]

/-! ## Between requests -/

omit [FiniteSource σ] in
theorem framing_indifferent : (framing : Course σ).Indifferent where
  ready _ := trivial
  moved _ _ _ := ⟨rfl, rfl⟩
  refused _ _ _ := ⟨rfl, rfl⟩

theorem perform_frame (s : Scanner σ) (request : Request) :
    (s.perform request).2.options = s.options ∧ (s.perform request).2.depth = s.depth := by
  refine framing.perform (s := s) trivial request ?_ (framing_indifferent.seek s) ?_
  · intro _
    obtain ⟨-, hoptions, hdepth⟩ := stepBack_withOptions s s.options
    exact ⟨hoptions, hdepth⟩
  · intro _ _
    exact ⟨rfl, rfl⟩

theorem run_frame (s : Scanner σ) (requests : List Request) :
    (s.run requests).2.options = s.options ∧ (s.run requests).2.depth = s.depth := by
  induction requests generalizing s with
  | nil => exact ⟨rfl, rfl⟩
  | cons request rest ih =>
    obtain ⟨hoptions, hdepth⟩ := perform_frame s request
    obtain ⟨hoptions', hdepth'⟩ := ih (s.perform request).2
    exact ⟨hoptions'.trans hoptions, hdepth'.trans hdepth⟩

/-! ## Within a request -/

namespace Reading

omit [CharSource σ] [FiniteSource σ] in
/-- Whether the call is for a container. -/
def isContainer : Reading σ → Bool
  | .object _ => true
  | .array _ => true
  | .value _ => false
  | .members _ _ => false
  | .items _ _ => false

/-- How the call ends: the failure, if any, and the scanner after it. -/
def outcome : Reading σ → Option Failure × Scanner σ
  | .value s => (failure? s.value.1, s.value.2)
  | .object s => (failure? s.object.1, s.object.2)
  | .array s => (failure? s.array.1, s.array.2)
  | .members ms s => (failure? (Scanner.members ms s).1, (Scanner.members ms s).2)
  | .items before s => (failure? (Scanner.items before s).1, (Scanner.items before s).2)

/-- The scanner is where the function expects it: at the bracket that was put back, or not behind
the end. -/
def Placed : Reading σ → Prop
  | .value _ => True
  | .object s => s.cursor.pending = some Container.object.opening
  | .array s => s.cursor.pending = some Container.array.opening
  | .members _ s => s.atEnd = false
  | .items _ s => s.atEnd = false

theorem call_placed {r r' : Reading σ} (h : Call r r') : r'.Placed := by
  cases h with
  | object hn hb | array hn hb => exact (nextSolid_handed hn).pending_stepBack hb
  | members _ ho => exact opening_open ho
  | items _ _ hc => exact (closes_handed hc).1
  | member | slot => trivial
  | moreMembers _ _ _ hs | moreSlots _ _ hs | moreEmptySlots _ hs => exact (separator_handed hs).1

/-- However a call ends, the options and the count are as before. -/
theorem outcome_frame {r : Reading σ} (h : r.Placed) :
    r.outcome.2.options = r.scanner.options ∧ r.outcome.2.depth = r.scanner.depth := by
  have hreading := (framing : Course σ).logic.reading
  cases r with
  | value s => exact (hreading.value s trivial).runs
  | object s => exact (hreading.object s h).runs
  | array s => exact (hreading.array s h).runs
  | members ms s => exact (hreading.members ms s ms h rfl).runs
  | items before s =>
    exact (hreading.items before s before h (List.forall₂_same.mpr fun _ _ => rfl)).runs

omit [CharSource σ] [FiniteSource σ] in
theorem inner_eq (r : Reading σ) :
    r.inner = r.scanner.depth + if r.isContainer then 1 else 0 := by
  cases r <;> rfl

/-- Calls are only made where the limit is not passed. -/
theorem inner_le {r r' : Reading σ} (hcall : Call r r')
    (h : r.scanner.depth ≤ r.scanner.options.maxDepth) :
    r.inner ≤ r.scanner.options.maxDepth := by
  cases hcall with
  | members hfull | items hfull => exact Nat.lt_of_not_le (of_decide_eq_false hfull)
  | object | array | member | moreMembers | slot | moreSlots | moreEmptySlots => exact h

/-- A container beyond the limit is refused on the spot. -/
theorem outcome_full {r : Reading σ} (hr : r.isContainer = true) (hfull : r.scanner.full = true) :
    ∃ k, r.outcome = (some (r.scanner.faultHere (.tooDeep k)), r.scanner) := by
  cases r with
  | object s =>
    refine ⟨.object, ?_⟩
    have hs : s.object = s.fail (.tooDeep .object) := (object_eq s).trans (if_pos hfull)
    rw [outcome, hs]
    rfl
  | array s =>
    refine ⟨.array, ?_⟩
    have hs : s.array = s.fail (.tooDeep .array) := (array_eq s).trans (if_pos hfull)
    rw [outcome, hs]
    rfl
  | value | members | items => cases hr

end Reading

open Reading (isContainer call_of_mem call_placed inner_eq inner_le outcome_frame outcome_full)

/-- While a value is read from `s`, the call is made from the calls listed, the innermost first. -/
inductive InProgress (s : Scanner σ) : Reading σ → List (Reading σ) → Prop where
  | value : InProgress s (.value s) []
  | call {r r' : Reading σ} {outer : List (Reading σ)} :
    InProgress s r outer → r' ∈ r.calls → InProgress s r' (r :: outer)

/-- The count where a call starts is that of the containers which are open. -/
theorem InProgress.balance {s : Scanner σ} {r : Reading σ} {outer : List (Reading σ)}
    (h : InProgress s r outer) (hs : s.depth = 0) :
    r.Placed ∧ r.scanner.options = s.options ∧
      r.scanner.depth = outer.countP isContainer ∧ r.scanner.depth ≤ s.options.maxDepth := by
  induction h with
  | value => exact ⟨trivial, rfl, hs, hs ▸ Nat.zero_le _⟩
  | @call r r' outer _ hmem ih =>
    obtain ⟨-, hoptions, hdepth, hle⟩ := ih
    have hcall := call_of_mem hmem
    obtain ⟨hoptions', hdepth'⟩ := call_frame hcall
    refine ⟨call_placed hcall, hoptions'.trans hoptions, ?_, ?_⟩
    · rw [hdepth', inner_eq, hdepth, List.countP_cons]
    · rw [hdepth', ← hoptions]
      exact inner_le hcall (hoptions ▸ hle)

/-! ## Nesting again -/

/-- So many arrays inside each other, around nothing. -/
def brackets : Nat → List Char
  | 0 => []
  | n + 1 => '[' :: (brackets n ++ [']'])

/-- What the brackets of `n + 1` arrays denote. -/
def nest : Nat → Value
  | 0 => .array []
  | n + 1 => .array [nest n]

omit [FiniteSource σ] in
theorem next_atDepth (s : Scanner σ) (d : Nat) :
    Scanner.next { s with depth := d } = (s.next.1, { s.next.2 with depth := d }) := by
  obtain ⟨source, cursor, options, depth⟩ := s
  simp only [next]
  cases cursor.pending with
  | some c => rfl
  | none => rcases CharSource.read source with ⟨_ | _, source'⟩ <;> rfl

omit [FiniteSource σ] in
/-- What comes next has nothing to do with the count. -/
theorem offers_atDepth {w : List Char} {s : Scanner σ} {d : Nat} :
    Offers w { s with depth := d } ↔ Offers w s := by
  induction w generalizing s with
  | nil => exact Iff.rfl
  | cons c w ih => rw [Offers, Offers, next_atDepth, ih]

/-- At an opening bracket a value is an array, if one may be opened. What is in it follows. -/
theorem value_opening_bracket {s : Scanner σ} {w : List Char} (h : Offers ('[' :: w) s)
    (hroom : s.depth < s.options.maxDepth) :
    ∃ s1 s2 : Scanner σ, s.value = s1.array ∧ s1.full = false ∧
      s1.enter.opening .array = (.ok (), s2) ∧ Offers w s2 ∧ s2.options = s.options ∧
      s2.depth = s.depth + 1 := by
  obtain ⟨s1, hback, hs1, hoptions, hdepth⟩ := h.peek
  have henter : Offers ('[' :: w) s1.enter := offers_atDepth.mpr hs1
  obtain ⟨hoptions', hdepth'⟩ := next_frame s1.enter
  refine ⟨s1, s1.enter.next.2, ?_, ?_, ?_, henter.2, hoptions'.trans hoptions,
    hdepth'.trans (congrArg Nat.succ hdepth)⟩
  · rw [value_eq, h.nextSolid (by decide)]
    simp only [hback]
    rfl
  · rw [full, hoptions, hdepth, decide_eq_false (Nat.not_le.mpr hroom)]
  · rw [opening, henter.nextSolid (by decide)]
    rfl

/-- **Room for the whole limit.** The brackets of as many arrays as may still be opened are read as
arrays inside each other. -/
theorem value_brackets {n : Nat} {w : List Char} {s : Scanner σ}
    (hroom : s.depth + n < s.options.maxDepth) (h : Offers (brackets (n + 1) ++ w) s) :
    ∃ s', s.value = (.ok (nest n), s') ∧ Offers w s' := by
  induction n generalizing s w with
  | zero =>
    obtain ⟨s1, s2, hvalue, hfull, ho, hin, -⟩ := value_opening_bracket h hroom
    have hc : s2.closes .array = (.ok true, s2.next.2) := by
      rw [closes, Offers.nextSolid hin (by decide)]
      rfl
    refine ⟨s2.next.2.leave, ?_, offers_atDepth.mpr hin.2⟩
    rw [hvalue, array_eq, hfull, ho]
    simp only [hc]
    rfl
  | succ n ih =>
    rw [brackets, List.cons_append, List.append_assoc] at h
    obtain ⟨s1, s2, hvalue, hfull, ho, hin, hoptions, hdepth⟩ :=
      value_opening_bracket h (by omega)
    -- the bracket is looked at for the closing one, and once more for an empty slot
    obtain ⟨s3, hback, hs3, hoptions3, hdepth3⟩ := Offers.peek hin
    obtain ⟨s4, hback4, hs4, hoptions4, hdepth4⟩ := Offers.peek hs3
    have hc : s2.closes .array = (.ok false, s3) := by
      rw [closes, Offers.nextSolid hin (by decide)]
      simp only [hback]
      rfl
    have he : s3.emptySlot = (.ok false, s4) := by
      rw [emptySlot, Offers.nextSolid hs3 (by decide)]
      simp only [hback4]
      rfl
    have hroom4 : s4.depth + n < s4.options.maxDepth := by
      rw [hoptions4, hoptions3, hoptions, hdepth4, hdepth3, hdepth]
      omega
    obtain ⟨s5, hv, hs5⟩ := ih hroom4 (w := ']' :: w) hs4
    have hs : s5.separator .array = (.ok true, s5.next.2) := by
      rw [separator, Offers.nextSolid hs5 (by decide)]
      rfl
    have hi : items [] s3 = (.ok [nest n], s5.next.2) := by
      rw [items_eq, he]
      simp only [hv, hs]
      rfl
    refine ⟨s5.next.2.leave, ?_, offers_atDepth.mpr hs5.2⟩
    rw [hvalue, array_eq, hfull, ho]
    simp only [hc, hi]
    rfl

theorem nesting_nest (n : Nat) : (nest n).nesting = n + 1 := by
  induction n with
  | zero => rfl
  | succ n ih => simp [nest, Value.nesting, Value.nestingItems, ih]

/-! ## After any requests -/

/-- What is said of a scanner between two requests, made under `o`. -/
structure Balanced (o : Options) (s : Scanner σ) : Prop where
  options : s.options = o
  closed : s.depth = 0
  /-- The count while a value is read: where a call starts, and where it ends in whatever way. -/
  inside : ∀ r outer, InProgress s r outer →
    r.scanner.depth = outer.countP isContainer ∧ r.outcome.2.depth = outer.countP isContainer ∧
      outer.countP isContainer ≤ o.maxDepth
  /-- At the limit a container is refused on the spot. -/
  limit : ∀ r outer, InProgress s r outer → r.isContainer = true →
    outer.countP isContainer = o.maxDepth →
      ∃ k, r.outcome = (some (r.scanner.faultHere (.tooDeep k)), r.scanner)
  /-- Values may nest as deep as ever. -/
  again : ∀ n w, n < o.maxDepth → Offers (brackets (n + 1) ++ w) s →
    ∃ v s', s.value = (.ok v, s') ∧ v.nesting = n + 1

theorem balanced {s : Scanner σ} (h : s.depth = 0) : Balanced s.options s where
  options := rfl
  closed := h
  inside r outer hr := by
    obtain ⟨hplaced, -, hdepth, hle⟩ := hr.balance h
    exact ⟨hdepth, (outcome_frame hplaced).2.trans hdepth, hdepth.symm.trans_le hle⟩
  limit r outer hr hcontainer hcount := by
    obtain ⟨-, hoptions, hdepth, -⟩ := hr.balance h
    apply outcome_full hcontainer
    rw [full, hoptions, hdepth, hcount, decide_eq_true (Nat.le_refl _)]
  again n w hn hoffers := by
    obtain ⟨s', hvalue, -⟩ := value_brackets (by rwa [h, Nat.zero_add]) hoffers
    exact ⟨nest n, s', hvalue, nesting_nest n⟩

/-- **The count of open containers is restored on every way out.** Over every source, whatever its
reads answer, and after every list of requests, nothing is open, however the requests ended. While
a value is read, the count is that of the containers around the call in progress, where the call
starts and where it ends, and it is never above the limit. So a value that is asked for later,
whatever failed before it, may nest as deep as the limit allows. Of a source that is not finite, as
many reads are allowed as one likes. -/
theorem run_balanced :
    (∀ (σ : Type) [CharSource σ] [FiniteSource σ] (source : σ) (o : Options)
      (requests : List Request), Balanced o ((ofSource source o).run requests).2) ∧
    ∀ (σ : Type) [CharSource σ] (source : σ) (reads : Nat) (o : Options)
      (requests : List Request),
      Balanced o ((ofSource (MeteredSource.mk source reads) o).run requests).2 := by
  have hall : ∀ (σ : Type) [CharSource σ] [FiniteSource σ] (source : σ) (o : Options)
      (requests : List Request), Balanced o ((ofSource source o).run requests).2 := by
    intro σ _ _ source o requests
    obtain ⟨hoptions, hdepth⟩ := run_frame (ofSource source o) requests
    have hbalanced := balanced hdepth
    rwa [hoptions] at hbalanced
  exact ⟨hall, fun σ _ source reads => hall _ (MeteredSource.mk source reads)⟩

/-- The source fails two arrays deep, which is all that the limit allows. Another two are read after
that. -/
theorem run_balanced_failing :
    let lost : SourceError := ⟨.connectionReset, "connection reset"⟩
    let source : ScriptSource := .ofEvents [.text "[[", .failure lost, .text "[[]]"]
    let o : Options := { maxDepth := 2 }
    let s := ((ofSource source o).run [.value]).2
    ((ofSource source o).perform .value).1 = .error (.source lost) ∧
      Offers (brackets 2 ++ []) s ∧ ∃ v s', s.value = (.ok v, s') ∧ v.nesting = 2 := by
  intro lost source o s
  have hoffers : Offers (brackets 2 ++ []) s := by
    with_unfolding_all exact ⟨rfl, rfl, rfl, rfl, trivial⟩
  refine ⟨by with_unfolding_all rfl, hoffers, ?_⟩
  exact (run_balanced.1 ScriptSource source o [.value]).again 1 [] (by decide) hoffers

end Scanner

end LaxJson
