import LaxJson.Proofs.Scanner.Calls
import LaxJson.Proofs.Scanner.Course
import LaxJson.Proofs.Scanner.Simulation

/-!
# LaxJson.Proofs.Scanner.Stricter

One input under two sets of options, the second stricter than the first: it allows no deeper
containers and no more keys, and drops the same members.

* `Framed`: the scanner under its own options and the same scanner under others. Every operation
  that only takes characters is in tandem on them.
* `Reading.refusal`: what options have against a call before it reads a value.
* `Strict`: the stricter run stops with the first refusal that is new in it, and if there is none it
  goes as the other one does. `strict_reading` proves it, by one lemma for each reading function.
* `call_frame`: a call starts under the options of the call that makes it, with its containers open.
-/

namespace LaxJson
namespace Scanner

variable {σ : Type}

/-- The scanner under other options. -/
def withOptions (s : Scanner σ) (o : Options) : Scanner σ := { s with options := o }

/-- One scanner with `e` containers open, under `o` and under `o'`. -/
structure Framed (o o' : Options) (e : Nat) (s t : Scanner σ) : Prop where
  options : s.options = o
  depth : s.depth = e
  other : t = s.withOptions o'

theorem Framed.enter {o o' : Options} {e : Nat} {s t : Scanner σ} (h : Framed o o' e s t) :
    Framed o o' (e + 1) s.enter t.enter :=
  ⟨h.options, congrArg Nat.succ h.depth, congrArg Scanner.enter h.other⟩

theorem Framed.leave {o o' : Options} {e : Nat} {s t : Scanner σ} (h : Framed o o' (e + 1) s t) :
    Framed o o' e s.leave t.leave :=
  ⟨h.options, congrArg Nat.pred h.depth, congrArg Scanner.leave h.other⟩

theorem Framed.full {o o' : Options} {e : Nat} {s t : Scanner σ} (h : Framed o o' e s t) :
    s.full = decide (o.maxDepth ≤ e) ∧ t.full = decide (o'.maxDepth ≤ e) := by
  obtain ⟨rfl, rfl, rfl⟩ := h
  exact ⟨rfl, rfl⟩

theorem stepBack_withOptions (s : Scanner σ) (o : Options) :
    (s.withOptions o).stepBack = (s.stepBack.1, s.stepBack.2.withOptions o) ∧
      s.stepBack.2.options = s.options ∧ s.stepBack.2.depth = s.depth := by
  rw [stepBack_snd]
  exact ⟨stepBack_frame s s.source o s.depth, rfl, rfl⟩

/-- The options `o'` allow less than `o`, and drop the same members. -/
structure Stricter (o o' : Options) : Prop where
  maxDepth : o'.maxDepth ≤ o.maxDepth
  dropNulls : o.dropNulls = o'.dropNulls
  uniqueKeys : o.uniqueKeys = true → o'.uniqueKeys = true

/-- The stricter run stops with its first new refusal, or does as the other one does. -/
inductive Strict {α : Type} (S : Scanner σ → Scanner σ → Prop) (first : Option Failure)
    (p q : Except Failure α × Scanner σ) : Prop where
  | alike : first = none → Agree S p q → Strict S first p q
  | stopped {f : Failure} : first = some f → q.1 = .error f → Strict S first p q

/-- A run that goes on after a reading stops with the first new refusal of either part. -/
theorem Strict.andThen {α β : Type} {S S' : Scanner σ → Scanner σ → Prop}
    {first rest : Option Failure} {p q : Except Failure α × Scanner σ}
    {p' q' : Except Failure β × Scanner σ} (h : Strict S first p q)
    (hstop : ∀ f, q.1 = .error f → q'.1 = .error f) (hgo : Agree S p q → Strict S' rest p' q') :
    Strict S' (first.or rest) p' q' := by
  cases h with
  | alike hfirst hagree =>
    rw [hfirst, Option.none_or]
    exact hgo hagree
  | stopped hfirst hq =>
    rw [hfirst, Option.some_or]
    exact .stopped rfl (hstop _ hq)

variable [CharSource σ]

theorem next_withOptions (s : Scanner σ) (o : Options) :
    (s.withOptions o).next = (s.next.1, s.next.2.withOptions o) := by
  obtain ⟨source, cursor, options, depth⟩ := s
  simp only [withOptions, next]
  cases cursor.pending with
  | some c => rfl
  | none => rcases CharSource.read source with ⟨_ | _, source'⟩ <;> rfl

theorem tandem_framed (o o' : Options) (e : Nat) :
    Tandem (Framed o o' e : Scanner σ → Scanner σ → Prop) where
  position := by
    rintro s t ⟨-, -, rfl⟩
    rfl
  atEnd := by
    rintro s t ⟨-, -, rfl⟩
    rfl
  next := by
    rintro s t ⟨rfl, rfl, rfl⟩
    obtain ⟨hoptions, hdepth⟩ := next_frame s
    rw [next_withOptions]
    exact ⟨rfl, hoptions, hdepth, rfl⟩
  stepBack := by
    rintro s t ⟨rfl, rfl, rfl⟩
    obtain ⟨hback, hoptions, hdepth⟩ := stepBack_withOptions s o'
    rw [hback]
    exact ⟨rfl, hoptions, hdepth, rfl⟩

variable [FiniteSource σ]

/-! ## Refusals -/

namespace Reading

/-- What the options have against a call: a container too many, or a key that is already there. -/
def refusal (o : Options) : Reading σ → Option Failure
  | .object s => if o.maxDepth ≤ s.depth then some (s.faultHere (.tooDeep .object)) else none
  | .array s => if o.maxDepth ≤ s.depth then some (s.faultHere (.tooDeep .array)) else none
  | .members ms s =>
    match s.nextKey with
    | (.error _, _) => none
    | (.ok none, _) => none
    | (.ok (some key), s1) =>
      match s1.colon with
      | (.error _, _) => none
      | (.ok (), s2) =>
        if o.uniqueKeys && ms.contains key then some (s2.faultHere (.duplicateKey key)) else none
  | .value _ => none
  | .items _ _ => none

/-- What `o'` has against the call if `o` has nothing against it. -/
def newRefusal (o o' : Options) (r : Reading σ) : Option Failure :=
  if (r.refusal o).isSome then none else r.refusal o'

/-- The first refusal of `o'` that is new, along the calls below. -/
def firstRefusal (o o' : Options) (r : Reading σ) : Option Failure :=
  r.readings.findSome? (newRefusal o o')

theorem findSome?_flatMap {α β γ : Type} (f : α → List β) (g : β → Option γ) (l : List α) :
    (l.flatMap f).findSome? g = l.findSome? fun a => (f a).findSome? g := by
  simp only [← List.head?_filterMap, List.filterMap_flatMap, List.head?_flatMap]

theorem firstRefusal_eq (o o' : Options) (r : Reading σ) :
    r.firstRefusal o o' = (r.newRefusal o o').or (r.calls.findSome? (firstRefusal o o')) := by
  have hcalls : (r.calls.flatMap readings).findSome? (newRefusal o o') =
      r.calls.findSome? (firstRefusal o o') := findSome?_flatMap _ _ _
  rw [firstRefusal, readings_eq, List.findSome?_cons, hcalls]
  cases r.newRefusal o o' <;> rfl

end Reading

open Reading

theorem findSome?_firstRefusal (o o' : Options) (r : Reading σ) (rs : List (Reading σ)) :
    (r :: rs).findSome? (firstRefusal o o') =
      (firstRefusal o o' r).or (rs.findSome? (firstRefusal o o')) := by
  rw [List.findSome?_cons]
  cases firstRefusal o o' r <;> rfl

section

variable {o o' : Options} {e : Nat} {s t : Scanner σ}

theorem value_strict (hst : Framed o o' e s t)
    (hobject : ∀ s' : Scanner σ, s'.unread ≤ s.unread → ∀ t', Framed o o' e s' t' →
      Strict (Framed o o' e) (firstRefusal o o' (.object s')) s'.object t'.object)
    (harray : ∀ s' : Scanner σ, s'.unread ≤ s.unread → ∀ t', Framed o o' e s' t' →
      Strict (Framed o o' e) (firstRefusal o o' (.array s')) s'.array t'.array) :
    Strict (Framed o o' e) (firstRefusal o o' (.value s)) s.value t.value := by
  have h : Tandem (Framed o o' e : Scanner σ → Scanner σ → Prop) := tandem_framed o o' e
  rw [firstRefusal_eq, value_eq s, value_eq t]
  rcases hn : s.nextSolid with ⟨_ | c, s1⟩ <;>
    obtain ⟨t1, ht, hst1⟩ := (h.nextSolid hst).of_eq hn
  · simp only [calls, hn, ht]
    exact .alike rfl ⟨rfl, hst1⟩
  simp only [calls, hn, ht]
  split
  · rcases hq : s1.quoted c with ⟨_ | text, s2⟩ <;>
      obtain ⟨t2, ht2, hst2⟩ := (h.quoted hst1 c).of_eq hq <;> simp only [ht2] <;>
      exact .alike rfl ⟨rfl, hst2⟩
  rcases hb : s1.stepBack with ⟨_ | _, s2⟩ <;>
    obtain ⟨t2, ht2, hst2⟩ := (h.stepBack hst1).of_eq hb
  · simp only [ht2]
    exact .alike rfl ⟨rfl, hst2⟩
  simp only [ht2]
  have hle : s2.unread ≤ s.unread := unread_stepBack (nextSolid_took hn) hb
  split
  · simpa [newRefusal, refusal] using hobject s2 hle t2 hst2
  split
  · simpa [newRefusal, refusal] using harray s2 hle t2 hst2
  rcases hk : s2.bare with ⟨_ | text, s3⟩ <;> obtain ⟨t3, ht3, hst3⟩ := (h.bare hst2).of_eq hk
  · simp only [ht3]
    exact .alike rfl ⟨rfl, hst3⟩
  simp only [ht3]
  split
  · exact .alike rfl (h.fail hst3 _)
  · exact .alike rfl ⟨rfl, hst3⟩

/-- Where one container more may be opened in both runs, they go on inside it. -/
theorem nested_strict {α : Type} (ho : Stricter o o') (hst : Framed o o' e s t) (k : Container)
    {r : Reading σ} {inside : List (Reading σ)} {p q : Except Failure α × Scanner σ}
    (hrefusal : ∀ o, r.refusal o =
      if o.maxDepth ≤ s.depth then some (s.faultHere (.tooDeep k)) else none)
    (hcalls : r.calls = if s.full then [] else inside)
    (hinside : Strict (Framed o o' e) (inside.findSome? (firstRefusal o o')) p q) :
    Strict (Framed o o' e) (firstRefusal o o' r) (if s.full then s.fail (.tooDeep k) else p)
      (if t.full then t.fail (.tooDeep k) else q) := by
  have hfail : Agree (Framed o o' e) (s.fail (.tooDeep k) : Except Failure α × Scanner σ)
      (t.fail (.tooDeep k)) := (tandem_framed o o' e).fail hst _
  obtain ⟨hfull, hfull'⟩ := hst.full
  rw [firstRefusal_eq, newRefusal, hrefusal, hrefusal, hcalls, hst.depth, hfull, hfull']
  by_cases hdeep : o.maxDepth ≤ e
  · have hdeep' : o'.maxDepth ≤ e := Nat.le_trans ho.maxDepth hdeep
    simp only [hdeep, hdeep', decide_true, if_true, Option.isSome_some, List.findSome?_nil]
    exact .alike rfl hfail
  by_cases hdeep' : o'.maxDepth ≤ e
  · simp only [hdeep, hdeep', decide_true, decide_false, Bool.false_eq_true, if_true, if_false,
      Option.isSome_none]
    exact .stopped rfl hfail.1.symm
  · simp only [hdeep, hdeep', decide_false, Bool.false_eq_true, if_false, Option.isSome_none,
      Option.none_or]
    exact hinside

theorem object_strict (ho : Stricter o o') (hst : Framed o o' e s t)
    (hmembers : ∀ ms (s' : Scanner σ), s'.unread < s.unread → ∀ t', Framed o o' (e + 1) s' t' →
      Strict (Framed o o' (e + 1)) (firstRefusal o o' (.members ms s')) (members ms s')
        (members ms t')) :
    Strict (Framed o o' e) (firstRefusal o o' (.object s)) s.object t.object := by
  have h : Tandem (Framed o o' (e + 1) : Scanner σ → Scanner σ → Prop) := tandem_framed o o' (e + 1)
  rw [object_eq s, object_eq t]
  refine nested_strict ho hst .object (fun _ => rfl) rfl ?_
  rcases ho : s.enter.opening .object with ⟨_ | _, s1⟩ <;>
    obtain ⟨t1, ht, hst1⟩ := (h.opening hst.enter .object).of_eq ho
  · simp only [ht]
    exact .alike rfl ⟨rfl, hst1.leave⟩
  simp only [ht]
  have hlt : s1.unread < s.unread := unread_opening (s := s.enter) ho
  rw [findSome?_firstRefusal]
  refine (hmembers [] s1 hlt t1 hst1).andThen ?_ ?_
  · intro f hf
    rcases hm : members [] t1 with ⟨_ | ms, t2⟩ <;> rw [hm] at hf <;> cases hf
    rfl
  · intro hagree
    rcases hm : members [] s1 with ⟨_ | ms, s2⟩ <;> obtain ⟨t2, ht2, hst2⟩ := hagree.of_eq hm <;>
      simp only [ht2] <;> exact .alike rfl ⟨rfl, hst2.leave⟩

theorem array_strict (ho : Stricter o o') (hst : Framed o o' e s t)
    (hitems : ∀ before (s' : Scanner σ), s'.unread < s.unread → ∀ t', Framed o o' (e + 1) s' t' →
      Strict (Framed o o' (e + 1)) (firstRefusal o o' (.items before s')) (items before s')
        (items before t')) :
    Strict (Framed o o' e) (firstRefusal o o' (.array s)) s.array t.array := by
  have h : Tandem (Framed o o' (e + 1) : Scanner σ → Scanner σ → Prop) := tandem_framed o o' (e + 1)
  rw [array_eq s, array_eq t]
  refine nested_strict ho hst .array (fun _ => rfl) rfl ?_
  rcases ho : s.enter.opening .array with ⟨_ | _, s1⟩ <;>
    obtain ⟨t1, ht, hst1⟩ := (h.opening hst.enter .array).of_eq ho
  · simp only [ht]
    exact .alike rfl ⟨rfl, hst1.leave⟩
  simp only [ht]
  have hlt : s1.unread < s.unread := unread_opening (s := s.enter) ho
  rcases hc : s1.closes .array with ⟨_ | _ | _, s2⟩ <;>
    obtain ⟨t2, ht2, hst2⟩ := (h.closes hst1 .array).of_eq hc
  · simp only [ht2]
    exact .alike rfl ⟨rfl, hst2.leave⟩
  · simp only [ht2]
    have hlt2 : s2.unread < s.unread := Nat.lt_of_le_of_lt (unread_closes hc) hlt
    rw [findSome?_firstRefusal]
    refine (hitems [] s2 hlt2 t2 hst2).andThen ?_ ?_
    · intro f hf
      rcases hi : items [] t2 with ⟨_ | vs, t3⟩ <;> rw [hi] at hf <;> cases hf
      rfl
    · intro hagree
      rcases hi : items [] s2 with ⟨_ | vs, s3⟩ <;> obtain ⟨t3, ht3, hst3⟩ := hagree.of_eq hi <;>
        simp only [ht3] <;> exact .alike rfl ⟨rfl, hst3.leave⟩
  · simp only [ht2]
    exact .alike rfl ⟨rfl, hst2.leave⟩

theorem addMember_congr (ho : Stricter o o') (ms : Members Value) (key : String) (v : Value) :
    addMember o ms key v = addMember o' ms key v := by
  rw [addMember, addMember, ho.dropNulls]

theorem members_strict (ho : Stricter o o') {ms : Members Value} (hst : Framed o o' e s t)
    (hvalue : ∀ s' : Scanner σ, s'.unread < s.unread → ∀ t', Framed o o' e s' t' →
      Strict (Framed o o' e) (firstRefusal o o' (.value s')) s'.value t'.value)
    (hmembers : ∀ ms' (s' : Scanner σ), s'.unread < s.unread → ∀ t', Framed o o' e s' t' →
      Strict (Framed o o' e) (firstRefusal o o' (.members ms' s')) (members ms' s')
        (members ms' t')) :
    Strict (Framed o o' e) (firstRefusal o o' (.members ms s)) (members ms s) (members ms t) := by
  have h : Tandem (Framed o o' e : Scanner σ → Scanner σ → Prop) := tandem_framed o o' e
  rw [firstRefusal_eq, members_eq ms s, members_eq ms t]
  rcases hk : s.nextKey with ⟨_ | _ | key, s1⟩ <;>
    obtain ⟨t1, ht, hst1⟩ := (h.nextKey hst).of_eq hk
  · simp only [newRefusal, refusal, calls, hk, ht]
    exact .alike rfl ⟨rfl, hst1⟩
  · simp only [newRefusal, refusal, calls, hk, ht]
    exact .alike rfl ⟨rfl, hst1⟩
  rcases hc : s1.colon with ⟨_ | _, s2⟩ <;> obtain ⟨t2, ht2, hst2⟩ := (h.colon hst1).of_eq hc
  · simp only [newRefusal, refusal, calls, hk, hc, ht, ht2]
    exact .alike rfl ⟨rfl, hst2⟩
  have hoptions : t2.options = o' := congrArg Scanner.options hst2.other
  simp only [newRefusal, refusal, calls, hk, hc, ht, ht2, hst2.options, hoptions]
  have hfail : Agree (Framed o o' e)
      (s2.fail (.duplicateKey key) : Except Failure (Members Value) × Scanner σ)
      (t2.fail (.duplicateKey key)) := h.fail hst2 _
  by_cases hdup : (o.uniqueKeys && ms.contains key) = true
  · have hdup' : (o'.uniqueKeys && ms.contains key) = true := by
      rw [Bool.and_eq_true] at hdup ⊢
      exact ⟨ho.uniqueKeys hdup.1, hdup.2⟩
    simp only [hdup, hdup', if_true, Option.isSome_some, List.findSome?_nil]
    exact .alike rfl hfail
  by_cases hdup' : (o'.uniqueKeys && ms.contains key) = true
  · simp only [hdup, hdup', if_true, Bool.false_eq_true, if_false, Option.isSome_none]
    exact .stopped rfl hfail.1.symm
  simp only [hdup, hdup', Bool.false_eq_true, if_false, Option.isSome_none, Option.none_or,
    findSome?_firstRefusal]
  have hlt1 : s1.unread < s.unread := unread_nextKey hk
  have hlt2 : s2.unread < s.unread := Nat.lt_of_le_of_lt (unread_colon hc) hlt1
  refine (hvalue s2 hlt2 t2 hst2).andThen ?_ ?_
  · intro f hf
    rcases hv : t2.value with ⟨_ | v, t3⟩ <;> rw [hv] at hf <;> cases hf
    rfl
  · intro hagree
    rcases hv : s2.value with ⟨_ | v, s3⟩ <;> obtain ⟨t3, ht3, hst3⟩ := hagree.of_eq hv
    · simp only [ht3]
      exact .alike rfl ⟨rfl, hst3⟩
    simp only [ht3]
    rcases hs : s3.separator .object with ⟨_ | _ | _, s4⟩ <;>
      obtain ⟨t4, ht4, hst4⟩ := (h.separator hst3 .object).of_eq hs
    · simp only [ht4]
      exact .alike rfl ⟨rfl, hst4⟩
    · have := unread_value hv
      have := unread_separator hs
      simp only [ht4, List.findSome?_singleton, addMember_congr ho]
      exact hmembers _ s4 (by omega) t4 hst4
    · simp only [ht4, addMember_congr ho]
      exact .alike rfl ⟨rfl, hst4⟩

theorem items_strict {before : List Value} (hst : Framed o o' e s t)
    (hvalue : ∀ s' : Scanner σ, s'.unread ≤ s.unread → ∀ t', Framed o o' e s' t' →
      Strict (Framed o o' e) (firstRefusal o o' (.value s')) s'.value t'.value)
    (hitems : ∀ before' (s' : Scanner σ), s'.unread < s.unread → ∀ t', Framed o o' e s' t' →
      Strict (Framed o o' e) (firstRefusal o o' (.items before' s')) (items before' s')
        (items before' t')) :
    Strict (Framed o o' e) (firstRefusal o o' (.items before s)) (items before s)
      (items before t) := by
  have h : Tandem (Framed o o' e : Scanner σ → Scanner σ → Prop) := tandem_framed o o' e
  have hown : newRefusal o o' (.items before s) = none := rfl
  rw [firstRefusal_eq, hown, Option.none_or, items_eq before s, items_eq before t]
  rcases he : s.emptySlot with ⟨_ | _ | _, s1⟩ <;>
    obtain ⟨t1, ht, hst1⟩ := (h.emptySlot hst).of_eq he
  · simp only [calls, he, ht]
    exact .alike rfl ⟨rfl, hst1⟩
  · simp only [calls, he, ht, findSome?_firstRefusal]
    have hle : s1.unread ≤ s.unread := unread_emptySlot he
    refine (hvalue s1 hle t1 hst1).andThen ?_ ?_
    · intro f hf
      rcases hv : t1.value with ⟨_ | v, t2⟩ <;> rw [hv] at hf <;> cases hf
      rfl
    · intro hagree
      rcases hv : s1.value with ⟨_ | v, s2⟩ <;> obtain ⟨t2, ht2, hst2⟩ := hagree.of_eq hv
      · simp only [ht2]
        exact .alike rfl ⟨rfl, hst2⟩
      simp only [ht2]
      rcases hs : s2.separator .array with ⟨_ | _ | _, s3⟩ <;>
        obtain ⟨t3, ht3, hst3⟩ := (h.separator hst2 .array).of_eq hs
      · simp only [ht3]
        exact .alike rfl ⟨rfl, hst3⟩
      · have := unread_value hv
        have := unread_separator hs
        simp only [ht3, List.findSome?_singleton]
        exact hitems _ s3 (by omega) t3 hst3
      · simp only [ht3]
        exact .alike rfl ⟨rfl, hst3⟩
  · simp only [calls, he, ht]
    have hle : s1.unread ≤ s.unread := unread_emptySlot he
    rcases hs : s1.separator .array with ⟨_ | _ | _, s2⟩ <;>
      obtain ⟨t2, ht2, hst2⟩ := (h.separator hst1 .array).of_eq hs
    · simp only [ht2]
      exact .alike rfl ⟨rfl, hst2⟩
    · have := unread_separator hs
      simp only [ht2, List.findSome?_singleton]
      exact hitems _ s2 (by omega) t2 hst2
    · simp only [ht2]
      exact .alike rfl ⟨rfl, hst2⟩

/-- The five reading functions, by induction along their calls in the less strict run. -/
theorem strict_reading (ho : Stricter o o') :
    Everywhere
      (fun s : Scanner σ => ∀ e t, Framed o o' e s t →
        Strict (Framed o o' e) (firstRefusal o o' (.value s)) s.value t.value)
      (fun s => ∀ e t, Framed o o' e s t →
        Strict (Framed o o' e) (firstRefusal o o' (.object s)) s.object t.object)
      (fun s => ∀ e t, Framed o o' e s t →
        Strict (Framed o o' e) (firstRefusal o o' (.array s)) s.array t.array)
      (fun ms s => ∀ e t, Framed o o' e s t →
        Strict (Framed o o' e) (firstRefusal o o' (.members ms s)) (members ms s) (members ms t))
      (fun before s => ∀ e t, Framed o o' e s t →
        Strict (Framed o o' e) (firstRefusal o o' (.items before s)) (items before s)
          (items before t)) := by
  apply reading_induction
  · intro s hobject harray e t hst
    exact value_strict hst (fun s' hs' => hobject s' hs' e) (fun s' hs' => harray s' hs' e)
  · intro s hmembers e t hst
    exact object_strict ho hst fun ms s' hs' => hmembers ms s' hs' (e + 1)
  · intro s hitems e t hst
    exact array_strict ho hst fun before s' hs' => hitems before s' hs' (e + 1)
  · intro ms s hvalue hmembers e t hst
    exact members_strict ho hst (fun s' hs' => hvalue s' hs' e)
      (fun ms' s' hs' => hmembers ms' s' hs' e)
  · intro before s hvalue hitems e t hst
    exact items_strict hst (fun s' hs' => hvalue s' hs' e)
      (fun before' s' hs' => hitems before' s' hs' e)

theorem document_strict (ho : Stricter o o') (hst : Framed o o' e s t) :
    Strict (Framed o o' e) (firstRefusal o o' (.value s)) s.document t.document := by
  have h : Tandem (Framed o o' e : Scanner σ → Scanner σ → Prop) := tandem_framed o o' e
  unfold document
  rw [← Option.or_none (o := firstRefusal o o' (.value s))]
  refine ((strict_reading ho).value s e t hst).andThen ?_ ?_
  · intro f hf
    rcases hv : t.value with ⟨_ | v, t1⟩ <;> rw [hv] at hf <;> cases hf
    rfl
  · intro hagree
    rcases hv : s.value with ⟨_ | v, s1⟩ <;> obtain ⟨t1, ht, hst1⟩ := hagree.of_eq hv
    · simp only [ht]
      exact .alike rfl ⟨rfl, hst1⟩
    simp only [ht]
    rcases hn : s1.nextSolid with ⟨_ | c, s2⟩ <;>
      obtain ⟨t2, ht2, hst2⟩ := (h.nextSolid hst1).of_eq hn
    · simp only [ht2]
      exact .alike rfl ⟨rfl, hst2⟩
    simp only [ht2]
    split
    · exact .alike rfl ⟨rfl, hst2⟩
    · exact .alike rfl (h.fail hst2 _)

end

/-! ## Options and depth along calls -/

/-- How many containers are open when the call makes calls of its own. -/
def Reading.inner : Reading σ → Nat
  | .value s => s.depth
  | .object s => s.depth + 1
  | .array s => s.depth + 1
  | .members _ s => s.depth
  | .items _ s => s.depth

/-- A call starts under the options of the call that makes it, with its containers open. -/
theorem call_frame {r r' : Reading σ} (hcall : Call r r') :
    r'.scanner.options = r.scanner.options ∧ r'.scanner.depth = r.inner := by
  have h : Tandem (Framed r.scanner.options r.scanner.options r.inner :
      Scanner σ → Scanner σ → Prop) := tandem_framed _ _ _
  suffices hframed :
      Framed r.scanner.options r.scanner.options r.inner r'.scanner r'.scanner by
    exact ⟨hframed.options, hframed.depth⟩
  have hvalue : ∀ {s s' : Scanner σ} {v : Value}, s.value = (.ok v, s') →
      Framed r.scanner.options r.scanner.options r.inner s s →
      Framed r.scanner.options r.scanner.options r.inner s' s' := by
    intro s s' v hv hs
    obtain ⟨hoptions, hdepth⟩ := value_frame s
    rw [hv] at hoptions hdepth
    have ho := hoptions.trans hs.options
    exact ⟨ho, hdepth.trans hs.depth, by rw [← ho]; rfl⟩
  cases hcall with
  | object hn hb => exact (h.stepBack ((h.nextSolid ⟨rfl, rfl, rfl⟩).self hn)).self hb
  | array hn hb => exact (h.stepBack ((h.nextSolid ⟨rfl, rfl, rfl⟩).self hn)).self hb
  | @members s _ _ ho =>
    have henter := Framed.enter (s := s) (t := s) ⟨rfl, rfl, rfl⟩
    exact (h.opening henter .object).self ho
  | @items s _ _ _ ho hc =>
    have henter := Framed.enter (s := s) (t := s) ⟨rfl, rfl, rfl⟩
    exact (h.closes ((h.opening henter .array).self ho) .array).self hc
  | member hk hc => exact (h.colon ((h.nextKey ⟨rfl, rfl, rfl⟩).self hk)).self hc
  | moreMembers hk hc hv hs =>
    have hcolon := (h.colon ((h.nextKey ⟨rfl, rfl, rfl⟩).self hk)).self hc
    exact (h.separator (hvalue hv hcolon) .object).self hs
  | slot he => exact (h.emptySlot ⟨rfl, rfl, rfl⟩).self he
  | moreSlots he hv hs =>
    have hslot := (h.emptySlot ⟨rfl, rfl, rfl⟩).self he
    exact (h.separator (hvalue hv hslot) .array).self hs
  | moreEmptySlots he hs =>
    exact (h.separator ((h.emptySlot ⟨rfl, rfl, rfl⟩).self he) .array).self hs

end Scanner

end LaxJson
