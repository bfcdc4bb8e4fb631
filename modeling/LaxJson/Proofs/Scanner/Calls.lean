import LaxJson.Scanner.Value

/-!
# LaxJson.Proofs.Scanner.Calls

The calls that a run makes. A `Reading` is a call of one of the five reading functions;
`Reading.calls` lists the calls that it makes in turn, in order, and `Reading.readings` all the calls
below it. `Call` says for each of the nine kinds of call what has been read before it.

* `call_of_mem`: the listed calls are of these kinds.
* `size_lt_of_call`: a call has less left to read, or the same in a function further in; so the
  calls are finitely many, and `Reading.induct` is the induction along them.
-/

namespace LaxJson
namespace Scanner

/-- A call of a function that reads values or their parts. -/
inductive Reading (σ : Type) where
  | value (s : Scanner σ)
  | object (s : Scanner σ)
  | array (s : Scanner σ)
  | members (ms : Members Value) (s : Scanner σ)
  | items (before : List Value) (s : Scanner σ)

namespace Reading

variable {σ : Type}

/-- The scanner that the call starts with. -/
def scanner : Reading σ → Scanner σ
  | .value s => s
  | .object s => s
  | .array s => s
  | .members _ s => s
  | .items _ s => s

variable [CharSource σ] [FiniteSource σ]

/-- The calls that a call makes, in order. -/
def calls : Reading σ → List (Reading σ)
  | .value s =>
    match s.nextSolid with
    | (.error _, _) => []
    | (.ok c, s1) =>
      if c = '"' ∨ c = '\'' then []
      else
        match s1.stepBack with
        | (.error _, _) => []
        | (.ok (), s2) =>
          if c = Container.object.opening then [.object s2]
          else if c = Container.array.opening then [.array s2]
          else []
  | .object s =>
    if s.full then []
    else
      match s.enter.opening .object with
      | (.error _, _) => []
      | (.ok (), s1) => [.members [] s1]
  | .array s =>
    if s.full then []
    else
      match s.enter.opening .array with
      | (.error _, _) => []
      | (.ok (), s1) =>
        match s1.closes .array with
        | (.error _, _) => []
        | (.ok true, _) => []
        | (.ok false, s2) => [.items [] s2]
  | .members ms s =>
    match s.nextKey with
    | (.error _, _) => []
    | (.ok none, _) => []
    | (.ok (some key), s1) =>
      match s1.colon with
      | (.error _, _) => []
      | (.ok (), s2) =>
        if s2.options.uniqueKeys && ms.contains key then []
        else
          .value s2 ::
            match s2.value with
            | (.error _, _) => []
            | (.ok v, s3) =>
              match s3.separator .object with
              | (.error _, _) => []
              | (.ok true, _) => []
              | (.ok false, s4) => [.members (addMember s2.options ms key v) s4]
  | .items before s =>
    match s.emptySlot with
    | (.error _, _) => []
    | (.ok true, s1) =>
      match s1.separator .array with
      | (.error _, _) => []
      | (.ok true, _) => []
      | (.ok false, s2) => [.items (.null :: before) s2]
    | (.ok false, s1) =>
      .value s1 ::
        match s1.value with
        | (.error _, _) => []
        | (.ok v, s2) =>
          match s2.separator .array with
          | (.error _, _) => []
          | (.ok true, _) => []
          | (.ok false, s3) => [.items (v :: before) s3]

/-- The kinds of call, with what was read between its start and the call. -/
inductive Call : Reading σ → Reading σ → Prop where
  | object {s s1 s2 : Scanner σ} : s.nextSolid = (.ok Container.object.opening, s1) →
    s1.stepBack = (.ok (), s2) → Call (.value s) (.object s2)
  | array {s s1 s2 : Scanner σ} : s.nextSolid = (.ok Container.array.opening, s1) →
    s1.stepBack = (.ok (), s2) → Call (.value s) (.array s2)
  | members {s s1 : Scanner σ} : s.full = false → s.enter.opening .object = (.ok (), s1) →
    Call (.object s) (.members [] s1)
  | items {s s1 s2 : Scanner σ} : s.full = false → s.enter.opening .array = (.ok (), s1) →
    s1.closes .array = (.ok false, s2) → Call (.array s) (.items [] s2)
  | member {ms : Members Value} {s s1 s2 : Scanner σ} {key : String} :
    s.nextKey = (.ok (some key), s1) → s1.colon = (.ok (), s2) → Call (.members ms s) (.value s2)
  | moreMembers {ms : Members Value} {s s1 s2 s3 s4 : Scanner σ} {key : String} {v : Value} :
    s.nextKey = (.ok (some key), s1) → s1.colon = (.ok (), s2) → s2.value = (.ok v, s3) →
      s3.separator .object = (.ok false, s4) →
      Call (.members ms s) (.members (addMember s2.options ms key v) s4)
  | slot {before : List Value} {s s1 : Scanner σ} : s.emptySlot = (.ok false, s1) →
    Call (.items before s) (.value s1)
  | moreSlots {before : List Value} {s s1 s2 s3 : Scanner σ} {v : Value} :
    s.emptySlot = (.ok false, s1) → s1.value = (.ok v, s2) →
      s2.separator .array = (.ok false, s3) → Call (.items before s) (.items (v :: before) s3)
  | moreEmptySlots {before : List Value} {s s1 s2 : Scanner σ} : s.emptySlot = (.ok true, s1) →
    s1.separator .array = (.ok false, s2) → Call (.items before s) (.items (.null :: before) s2)

theorem call_of_mem {r r' : Reading σ} (h : r' ∈ r.calls) : Call r r' := by
  cases r with
  | value s =>
    rcases hn : s.nextSolid with ⟨_ | c, s1⟩ <;> simp only [calls, hn] at h
    · cases h
    split at h
    · cases h
    rcases hb : s1.stepBack with ⟨_ | _, s2⟩ <;> simp only [hb] at h
    · cases h
    split at h
    · rename_i hc
      cases List.mem_singleton.mp h
      exact .object (hc ▸ hn) hb
    split at h
    · rename_i hc
      cases List.mem_singleton.mp h
      exact .array (hc ▸ hn) hb
    · cases h
  | object s =>
    simp only [calls] at h
    split at h
    · cases h
    rename_i hfull
    rcases ho : s.enter.opening .object with ⟨_ | _, s1⟩ <;> simp only [ho] at h
    · cases h
    cases List.mem_singleton.mp h
    exact .members (Bool.eq_false_iff.mpr hfull) ho
  | array s =>
    simp only [calls] at h
    split at h
    · cases h
    rename_i hfull
    rcases ho : s.enter.opening .array with ⟨_ | _, s1⟩ <;> simp only [ho] at h
    · cases h
    rcases hc : s1.closes .array with ⟨_ | _ | _, s2⟩ <;> simp only [hc] at h
    · cases h
    · cases List.mem_singleton.mp h
      exact .items (Bool.eq_false_iff.mpr hfull) ho hc
    · cases h
  | members ms s =>
    rcases hk : s.nextKey with ⟨_ | _ | key, s1⟩ <;> simp only [calls, hk] at h
    · cases h
    · cases h
    rcases hc : s1.colon with ⟨_ | _, s2⟩ <;> simp only [hc] at h
    · cases h
    split at h
    · cases h
    rcases List.mem_cons.mp h with rfl | h
    · exact .member hk hc
    rcases hv : s2.value with ⟨_ | v, s3⟩ <;> simp only [hv] at h
    · cases h
    rcases hs : s3.separator .object with ⟨_ | _ | _, s4⟩ <;> simp only [hs] at h
    · cases h
    · cases List.mem_singleton.mp h
      exact .moreMembers hk hc hv hs
    · cases h
  | items before s =>
    rcases he : s.emptySlot with ⟨_ | _ | _, s1⟩ <;> simp only [calls, he] at h
    · cases h
    · rcases List.mem_cons.mp h with rfl | h
      · exact .slot he
      rcases hv : s1.value with ⟨_ | v, s2⟩ <;> simp only [hv] at h
      · cases h
      rcases hs : s2.separator .array with ⟨_ | _ | _, s3⟩ <;> simp only [hs] at h
      · cases h
      · cases List.mem_singleton.mp h
        exact .moreSlots he hv hs
      · cases h
    · rcases hs : s1.separator .array with ⟨_ | _ | _, s2⟩ <;> simp only [hs] at h
      · cases h
      · cases List.mem_singleton.mp h
        exact .moreEmptySlots he hs
      · cases h

/-! ## Below a call -/

/-- What a call has left to read, and how far in its function is. -/
def size : Reading σ → Nat
  | .value s => 3 * s.unread + 1
  | .object s => 3 * s.unread
  | .array s => 3 * s.unread
  | .members _ s => 3 * s.unread + 2
  | .items _ s => 3 * s.unread + 2

theorem size_lt_of_call {r r' : Reading σ} (h : Call r r') : r'.size < r.size := by
  cases h with
  | object hn hb =>
    have := unread_stepBack (nextSolid_took hn) hb
    simp only [size]
    omega
  | array hn hb =>
    have := unread_stepBack (nextSolid_took hn) hb
    simp only [size]
    omega
  | @members s _ _ ho =>
    have := unread_opening (s := s.enter) ho
    have hs : s.enter.unread = s.unread := rfl
    simp only [size]
    omega
  | @items s _ _ _ ho hc =>
    have := unread_opening (s := s.enter) ho
    have := unread_closes hc
    have hs : s.enter.unread = s.unread := rfl
    simp only [size]
    omega
  | member hk hc =>
    have := unread_nextKey hk
    have := unread_colon hc
    simp only [size]
    omega
  | moreMembers hk hc hv hs =>
    have := unread_nextKey hk
    have := unread_colon hc
    have := unread_value hv
    have := unread_separator hs
    simp only [size]
    omega
  | slot he =>
    have := unread_emptySlot he
    simp only [size]
    omega
  | moreSlots he hv hs =>
    have := unread_emptySlot he
    have := unread_value hv
    have := unread_separator hs
    simp only [size]
    omega
  | moreEmptySlots he hs =>
    have := unread_emptySlot he
    have := unread_separator hs
    simp only [size]
    omega

/-- Induction along the calls. -/
theorem induct {P : Reading σ → Prop} (step : ∀ r, (∀ r' ∈ r.calls, P r') → P r) (r : Reading σ) :
    P r := by
  induction h : r.size using Nat.strongRecOn generalizing r with
  | ind n ih =>
    subst h
    apply step
    intro r' hr'
    exact ih r'.size (size_lt_of_call (call_of_mem hr')) r' rfl

/-- A call and all the calls below it, in order. -/
def readings (r : Reading σ) : List (Reading σ) :=
  r :: r.calls.attach.flatMap fun call => readings call.1
termination_by r.size
decreasing_by exact size_lt_of_call (call_of_mem call.2)

theorem readings_eq (r : Reading σ) : r.readings = r :: r.calls.flatMap readings := by
  rw [readings, List.flatMap_subtype (g := readings) (fun _ _ => rfl), List.unattach_attach]

theorem mem_readings_self (r : Reading σ) : r ∈ r.readings := by
  rw [readings_eq]
  exact List.mem_cons_self

/-- What is below a call is below the calls that make it. -/
theorem mem_readings_of_call {r r' below : Reading σ} (hcall : r' ∈ r.calls)
    (h : below ∈ r'.readings) : below ∈ r.readings := by
  rw [readings_eq]
  exact List.mem_cons_of_mem _ (List.mem_flatMap.mpr ⟨r', hcall, h⟩)

/-- What every call hands on to the calls it makes holds of all the calls below. -/
theorem forall_readings {P : Reading σ → Prop} (hcall : ∀ {r r'}, P r → Call r r' → P r')
    {r : Reading σ} (h : P r) : ∀ r' ∈ r.readings, P r' := by
  induction r using induct with
  | step r ih =>
    intro r' hr'
    rw [readings_eq, List.mem_cons, List.mem_flatMap] at hr'
    rcases hr' with rfl | ⟨call, hmem, hbelow⟩
    · exact h
    · exact ih call hmem (hcall h (call_of_mem hmem)) r' hbelow

/-! ## Success -/

/-- The call returns something. -/
def Succeeds : Reading σ → Prop
  | .value s => ∃ v s', s.value = (.ok v, s')
  | .object s => ∃ v s', s.object = (.ok v, s')
  | .array s => ∃ v s', s.array = (.ok v, s')
  | .members ms s => ∃ ms' s', Scanner.members ms s = (.ok ms', s')
  | .items before s => ∃ vs s', Scanner.items before s = (.ok vs, s')

/-- A call only succeeds if the calls that it makes do. -/
theorem Succeeds.call {r r' : Reading σ} (h : r.Succeeds) (hcall : Call r r') : r'.Succeeds := by
  cases hcall with
  | object hn hb =>
    obtain ⟨v, s', h⟩ := h
    rw [value_eq, hn] at h
    simp only [hb, if_neg (show ¬ (Container.object.opening = '"' ∨
      Container.object.opening = '\'') by decide), if_true] at h
    exact ⟨v, s', h⟩
  | array hn hb =>
    obtain ⟨v, s', h⟩ := h
    rw [value_eq, hn] at h
    simp only [hb, if_neg (show ¬ (Container.array.opening = '"' ∨
      Container.array.opening = '\'') by decide),
      if_neg (show Container.array.opening ≠ Container.object.opening by decide), if_true] at h
    exact ⟨v, s', h⟩
  | @members s s1 hfull ho =>
    obtain ⟨v, s', h⟩ := h
    rw [object_eq, hfull, ho] at h
    rcases hm : Scanner.members [] s1 with ⟨_ | ms, s2⟩ <;> simp only [hm] at h
    · cases h
    · exact ⟨ms, s2, hm⟩
  | @items s s1 s2 hfull ho hc =>
    obtain ⟨v, s', h⟩ := h
    rw [array_eq, hfull, ho] at h
    simp only [hc] at h
    rcases hi : Scanner.items [] s2 with ⟨_ | vs, s3⟩ <;> simp only [hi] at h
    · cases h
    · exact ⟨vs, s3, hi⟩
  | @member ms s s1 s2 key hk hc =>
    obtain ⟨ms', s', h⟩ := h
    rw [members_eq, hk] at h
    simp only [hc] at h
    split at h
    · cases h
    rcases hv : s2.value with ⟨_ | v, s3⟩ <;> simp only [hv] at h
    · cases h
    · exact ⟨v, s3, hv⟩
  | moreMembers hk hc hv hs =>
    obtain ⟨ms', s', h⟩ := h
    rw [members_eq, hk] at h
    simp only [hc, hv, hs] at h
    split at h
    · cases h
    · exact ⟨ms', s', h⟩
  | @slot before s s1 he =>
    obtain ⟨vs, s', h⟩ := h
    rw [items_eq, he] at h
    rcases hv : s1.value with ⟨_ | v, s2⟩ <;> simp only [hv] at h
    · cases h
    · exact ⟨v, s2, hv⟩
  | moreSlots he hv hs =>
    obtain ⟨vs, s', h⟩ := h
    rw [items_eq, he] at h
    simp only [hv, hs] at h
    exact ⟨vs, s', h⟩
  | moreEmptySlots he hs =>
    obtain ⟨vs, s', h⟩ := h
    rw [items_eq, he] at h
    simp only [hs] at h
    exact ⟨vs, s', h⟩

end Reading

end Scanner

end LaxJson
