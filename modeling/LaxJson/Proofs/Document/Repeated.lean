import LaxJson.Proofs.Document.Keys

/-!
# LaxJson.Proofs.Document.Repeated

What the check for repeated keys refuses. It only ever refuses a key that has come before in the
same object, and leaves everything else as it is.

* `writtenKeys`: the keys of an object as they are written, as far as it is read. A key counts as
  soon as its colon is read, which is when it is looked up, whether or not its value is.
* `refused_repeated`: a refused key is among the members its object has, or is repeated after them.
* `parse_repeatedKey`: the two outcomes with the check, compared to the one without.
-/

namespace LaxJson

namespace Scanner

variable {σ : Type} [CharSource σ] [FiniteSource σ]

/-- The members have no keys after one more but its own and those that they had. -/
theorem key_of_addMember {o : Options} {ms : Members Value} {key k : String} {v : Value}
    (h : (addMember o ms key v).contains k = true) : k = key ∨ ms.contains k = true := by
  rw [addMember] at h
  split at h
  · exact .inr h
  · rw [Members.contains_put, Bool.or_eq_true, beq_iff_eq] at h
    exact h

/-- The keys of an open object as they are written, from the next one on. -/
def keysFrom (s : Scanner σ) : List String :=
  match _hk : s.nextKey with
  | (.error _, _) => []
  | (.ok none, _) => []
  | (.ok (some key), s1) =>
    match _hc : s1.colon with
    | (.error _, _) => []
    | (.ok (), s2) =>
      match _hv : s2.value with
      | (.error _, _) => [key]
      | (.ok _, s3) =>
        match _hs : s3.separator .object with
        | (.error _, _) => [key]
        | (.ok true, _) => [key]
        | (.ok false, s4) => key :: keysFrom s4
termination_by s.unread
decreasing_by
  have := unread_nextKey _hk
  have := unread_colon _hc
  have := unread_value _hv
  have := unread_separator _hs
  omega

theorem keysFrom_eq (s : Scanner σ) :
    keysFrom s =
      match s.nextKey with
      | (.error _, _) => []
      | (.ok none, _) => []
      | (.ok (some key), s1) =>
        match s1.colon with
        | (.error _, _) => []
        | (.ok (), s2) =>
          match s2.value with
          | (.error _, _) => [key]
          | (.ok _, s3) =>
            match s3.separator .object with
            | (.error _, _) => [key]
            | (.ok true, _) => [key]
            | (.ok false, s4) => key :: keysFrom s4 := by
  rw [keysFrom]
  rcases s.nextKey with ⟨_ | _ | key, s1⟩
  · rfl
  · rfl
  dsimp only
  rcases s1.colon with ⟨_ | _, s2⟩
  · rfl
  dsimp only
  rcases s2.value with ⟨_ | v, s3⟩
  · rfl
  dsimp only
  rcases s3.separator .object with ⟨_ | _ | _, s4⟩ <;> rfl

theorem keysFrom_more {s s1 s2 s3 s4 : Scanner σ} {key : String} {v : Value}
    (hk : s.nextKey = (.ok (some key), s1)) (hc : s1.colon = (.ok (), s2))
    (hv : s2.value = (.ok v, s3)) (hs : s3.separator .object = (.ok false, s4)) :
    keysFrom s = key :: keysFrom s4 := by
  rw [keysFrom_eq, hk]
  simp only [hc, hv, hs]

theorem mem_keysFrom {s s1 s2 : Scanner σ} {key : String} (hk : s.nextKey = (.ok (some key), s1))
    (hc : s1.colon = (.ok (), s2)) : key ∈ keysFrom s := by
  rw [keysFrom_eq, hk]
  simp only [hc]
  rcases s2.value with ⟨_ | v, s3⟩
  · exact List.mem_singleton_self key
  dsimp only
  rcases s3.separator .object with ⟨_ | _ | _, s4⟩
  · exact List.mem_singleton_self key
  · exact List.mem_cons_self
  · exact List.mem_singleton_self key

/-- The keys of an object as they are written, from its opening bracket on. -/
def writtenKeys (s : Scanner σ) : List String :=
  match s.enter.opening .object with
  | (.error _, _) => []
  | (.ok (), s1) => keysFrom s1

namespace Reading

/-- The keys of the object that the call reads, as they are written. -/
def keys? : Reading σ → Option (List String)
  | .object s => some (writtenKeys s)
  | .value _ => none
  | .array _ => none
  | .members _ _ => none
  | .items _ _ => none

/-- The keys of each object that a call and the calls below it read. -/
def objectKeys (r : Reading σ) : List (List String) := r.readings.filterMap keys?

theorem mem_objectKeys_self {r : Reading σ} {keys : List String} (h : r.keys? = some keys) :
    keys ∈ r.objectKeys :=
  List.mem_filterMap.mpr ⟨r, mem_readings_self r, h⟩

theorem mem_objectKeys_of_call {r r' : Reading σ} {keys : List String} (hcall : r' ∈ r.calls)
    (h : keys ∈ r'.objectKeys) : keys ∈ r.objectKeys := by
  obtain ⟨below, hbelow, hkeys⟩ := List.mem_filterMap.mp h
  exact List.mem_filterMap.mpr ⟨below, mem_readings_of_call hcall hbelow, hkeys⟩

/-- The key comes twice in an object below, or in the object that the call goes on with: there it may
have come before the call, if it is among the members. -/
def Repeated (key : String) (r : Reading σ) : Prop :=
  (∃ keys ∈ r.objectKeys, 2 ≤ keys.count key) ∨
    ∃ ms s, r = .members ms s ∧
      (ms.contains key = true ∧ key ∈ keysFrom s ∨ 2 ≤ (keysFrom s).count key)

variable {o : Options}

/-- Whatever is refused because of a repeated key is refused at a key that is among the members. -/
theorem newRefusal_key {r : Reading σ} {f : Failure}
    (h : newRefusal { o with uniqueKeys := false } { o with uniqueKeys := true } r = some f) :
    ∃ key position, f = .faulty (.duplicateKey key) position ∧ r.Repeated key := by
  cases r with
  | value s | items before s => cases h
  | object s | array s =>
    rw [newRefusal_uniqueKeys (by rintro _ _ ⟨⟩)] at h
    cases h
  | members ms s =>
    rw [newRefusal, refusal, refusal] at h
    rcases hk : s.nextKey with ⟨_ | _ | key, s1⟩ <;> simp only [hk] at h
    · cases h
    · cases h
    rcases hc : s1.colon with ⟨_ | _, s2⟩ <;> simp only [hc] at h
    · cases h
    simp only [Bool.false_and, Bool.true_and, Bool.false_eq_true, if_false, Option.isSome_none] at h
    split at h <;> cases h
    rename_i hcontains
    exact ⟨key, _, rfl, .inr ⟨ms, s, rfl, .inl ⟨hcontains, mem_keysFrom hk hc⟩⟩⟩

/-- What is repeated in a call is repeated in the call that makes it. -/
theorem Repeated.call {r r' : Reading σ} {key : String} (hr' : r' ∈ r.calls)
    (h : r'.Repeated key) : r.Repeated key := by
  rcases h with ⟨keys, hkeys, htwice⟩ | ⟨ms, s, rfl, h⟩
  · exact .inl ⟨keys, mem_objectKeys_of_call hr' hkeys, htwice⟩
  cases call_of_mem hr' with
  | @members s0 s1 hfull ho =>
    -- an object begins with no members
    rcases h with ⟨hcontains, -⟩ | htwice
    · cases hcontains
    · have hkeys : (Reading.object s0).keys? = some (keysFrom s) := by
        rw [keys?, writtenKeys, ho]
      exact .inl ⟨keysFrom s, mem_objectKeys_self hkeys, htwice⟩
  | @moreMembers ms0 s0 s1 s2 s3 _ key0 v hk hc hv hs =>
    refine .inr ⟨ms0, s0, rfl, ?_⟩
    rw [keysFrom_more hk hc hv hs]
    rcases h with ⟨hcontains, hmem⟩ | htwice
    · rcases key_of_addMember hcontains with rfl | hcontains
      · right
        rw [List.count_cons_self]
        exact Nat.succ_le_succ (List.count_pos_iff.mpr hmem)
      · exact .inl ⟨hcontains, List.mem_cons_of_mem _ hmem⟩
    · exact .inr (htwice.trans List.count_le_count_cons)

/-- A key that a call has refused comes twice in one object. -/
theorem refused_repeated {r : Reading σ} {f : Failure}
    (h : firstRefusal { o with uniqueKeys := false } { o with uniqueKeys := true } r = some f) :
    ∃ key position, f = .faulty (.duplicateKey key) position ∧ r.Repeated key := by
  induction r using induct with
  | step r ih =>
    rw [firstRefusal_eq, Option.or_eq_some_iff] at h
    rcases h with hown | ⟨-, hcalls⟩
    · exact newRefusal_key hown
    obtain ⟨r', hr', hf⟩ := List.exists_of_findSome?_eq_some hcalls
    obtain ⟨key, position, rfl, hrepeated⟩ := ih r' hr' hf
    exact ⟨key, position, rfl, hrepeated.call hr'⟩

end Reading

end Scanner

open Scanner Scanner.Reading in
/-- **The check for repeated keys does nothing else.** With it a text is parsed as without it, to the
same value or with the same failure, or it is refused because of a key, named in the message, that is
written at least twice in one object of the text. -/
theorem parse_repeatedKey (text : String) (o : Options) :
    let loose : Options := { o with uniqueKeys := false }
    let strict : Options := { o with uniqueKeys := true }
    parse text strict = parse text loose ∨
      ∃ key position, parse text strict = .error (.faulty (.duplicateKey key) position) ∧
        (Fault.duplicateKey key).message = "duplicate key " ++ Escape.quotedString key ∧
        ∃ keys ∈ objectKeys (.value (ofText text loose)), 2 ≤ keys.count key := by
  intro loose strict
  have hstricter : Stricter loose strict := ⟨Nat.le_refl _, rfl, fun _ => rfl⟩
  have hstart : Framed loose strict 0 (ofText text loose) (ofText text strict) := ⟨rfl, rfl, rfl⟩
  cases document_strict hstricter hstart with
  | alike _ hagree => exact .inl hagree.1.symm
  | stopped hfirst hfail =>
    obtain ⟨key, position, rfl, hrepeated⟩ := refused_repeated hfirst
    refine .inr ⟨key, position, hfail, rfl, ?_⟩
    rcases hrepeated with htwice | ⟨ms, s, hvalue, -⟩
    · exact htwice
    · cases hvalue

open Scanner Scanner.Reading in
/-- The inner object has its own keys, and the last key of the outer one has no value yet. -/
example : objectKeys (.value (ofText "\x7ba:1,b:\x7ba:2\x7d,a:" {})) = [["a", "b", "a"], ["a"]] := by
  decide +kernel

end LaxJson
