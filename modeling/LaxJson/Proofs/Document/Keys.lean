import LaxJson.Document
import LaxJson.Proofs.Grammar.Soundness
import LaxJson.Proofs.Scanner.Stricter

/-!
# LaxJson.Proofs.Document.Keys

Repeated keys, when they are an error. A key is looked up among the members that are kept, and not
among those that are written: so a text is refused if a key comes again after a member that is kept
(`parse_uniqueKeys`), but not if every earlier member of that key was a null that is left out
(`parse_repeatedNull`).

* `written`: the members of an object as they are written. `object_written`: the object that is
  read is what they amount to. `Reading.objects`: these lists for all the objects of a run.
* `Reading.clean_iff`: when no key is refused, by induction along the calls. The members that were
  kept before a call come into it as `Reading.Fresh`.
-/

namespace LaxJson

namespace Scanner

/-- The later of two members may have the key of the earlier one if that one is left out. -/
def Repeats (o : Options) (m m' : String × Value) : Prop :=
  m.1 = m'.1 → o.dropNulls = true ∧ m.2 = .null

/-- A key is new after one more member if it was new before, and may come after that member. -/
theorem contains_addMember {o : Options} {ms : Members Value} {m m' : String × Value} :
    (addMember o ms m.1 m.2).contains m'.1 = false ↔
      ms.contains m'.1 = false ∧ Repeats o m m' := by
  rw [addMember_eq, Repeats]
  split
  · rename_i hdropped
    exact ⟨fun h => ⟨h, fun _ => hdropped⟩, And.left⟩
  · rename_i hkept
    rw [Members.contains_put, Bool.or_eq_false_iff, beq_eq_false_iff_ne, and_comm]
    refine and_congr_right' ⟨fun hne heq => absurd heq.symm hne, fun h heq => ?_⟩
    exact hkept (h heq.symm)

theorem addMember_uniqueKeys (o : Options) (b : Bool) (ms : Members Value) (key : String)
    (v : Value) : addMember { o with uniqueKeys := b } ms key v = addMember o ms key v := rfl

variable {σ : Type} [CharSource σ] [FiniteSource σ]

/-- The members of an open object as they are written, from the next key on. -/
def written (s : Scanner σ) : List (String × Value) :=
  match _hk : s.nextKey with
  | (.error _, _) => []
  | (.ok none, _) => []
  | (.ok (some key), s1) =>
    match _hc : s1.colon with
    | (.error _, _) => []
    | (.ok (), s2) =>
      match _hv : s2.value with
      | (.error _, _) => []
      | (.ok v, s3) =>
        match _hs : s3.separator .object with
        | (.error _, _) => [(key, v)]
        | (.ok true, _) => [(key, v)]
        | (.ok false, s4) => (key, v) :: written s4
termination_by s.unread
decreasing_by
  have := unread_nextKey _hk
  have := unread_colon _hc
  have := unread_value _hv
  have := unread_separator _hs
  omega

/-- The members that are read are those that are written, added one by one. -/
theorem members_eq_written {o : Options} {ms ms' : Members Value} {s s' : Scanner σ}
    (ho : s.options = o) (h : members ms s = (.ok ms', s')) :
    ms' = (written s).foldl (fun acc m => addMember o acc m.1 m.2) ms := by
  rw [members_eq] at h
  fun_induction written s generalizing ms with
  | case1 s e s1 hk =>
    rw [hk] at h
    cases h
  | case2 s s1 hk =>
    rw [hk] at h
    cases h
    rfl
  | case3 s key s1 hk e s2 hc =>
    simp only [hk, hc] at h
    cases h
  | case4 s key s1 hk s2 hc e s3 hv =>
    simp only [hk, hc, hv] at h
    split at h <;> cases h
  | case5 s key s1 hk s2 hc v s3 hv e s4 hs =>
    simp only [hk, hc, hv, hs] at h
    split at h <;> cases h
  | case6 s key s1 hk s2 hc v s3 hv s4 hs =>
    have hcall : Reading.Call (.members ms s) (.value s2) := .member hk hc
    have ho2 : s2.options = o := (call_frame hcall).1.trans ho
    simp only [hk, hc, hv, hs] at h
    split at h <;> cases h
    rw [ho2, List.foldl_cons, List.foldl_nil]
  | case7 s key s1 hk s2 hc v s3 hv s4 hs ih =>
    have hcall : Reading.Call (.members ms s) (.value s2) := .member hk hc
    have hmore : Reading.Call (.members ms s) (.members (addMember s2.options ms key v) s4) :=
      .moreMembers hk hc hv hs
    have ho2 : s2.options = o := (call_frame hcall).1.trans ho
    have ho4 : s4.options = o := (call_frame hmore).1.trans ho
    simp only [hk, hc, hv, hs] at h
    split at h
    · cases h
    · rw [members_eq] at h
      rw [ih ho4 h, ho2, List.foldl_cons]

/-- The members of an object as they are written, from its opening bracket on. -/
def writtenMembers (s : Scanner σ) : List (String × Value) :=
  match s.enter.opening .object with
  | (.error _, _) => []
  | (.ok (), s1) => written s1

/-- An object that is read is what its members, as they are written, amount to. -/
theorem object_written {s s' : Scanner σ} {v : Value} (h : s.object = (.ok v, s')) :
    v = .object (Grammar.objectMembers s.options (writtenMembers s)) := by
  rw [object_eq] at h
  split at h
  · cases h
  rename_i hfull
  rcases hopening : s.enter.opening .object with ⟨_ | _, s1⟩ <;> simp only [hopening] at h
  · cases h
  rcases hmembers : members [] s1 with ⟨_ | ms, s2⟩ <;> simp only [hmembers] at h
  · cases h
  cases h
  have hcall : Reading.Call (.object s) (.members [] s1) :=
    .members (Bool.eq_false_iff.mpr hfull) hopening
  rw [writtenMembers, hopening, ← Grammar.foldl_addMember,
    members_eq_written (call_frame hcall).1 hmembers]
  rfl

namespace Reading

/-- The object that the call reads, as it is written. -/
def object? : Reading σ → Option (List (String × Value))
  | .object s => some (writtenMembers s)
  | .value _ => none
  | .array _ => none
  | .members _ _ => none
  | .items _ _ => none

/-- The objects that a call and the calls below it read, as they are written. -/
def objects (r : Reading σ) : List (List (String × Value)) := r.readings.filterMap object?

theorem forall_objects {P : List (String × Value) → Prop} {r : Reading σ} :
    (∀ ms ∈ r.objects, P ms) ↔
      (∀ ms, r.object? = some ms → P ms) ∧ ∀ r' ∈ r.calls, ∀ ms ∈ r'.objects, P ms := by
  simp only [objects, List.forall_mem_filterMap]
  rw [readings_eq, List.forall_mem_cons, List.forall_mem_flatMap]

/-- No key is refused in the call, or in those below it, when keys may not be repeated. -/
def Clean (o : Options) (r : Reading σ) : Prop :=
  firstRefusal { o with uniqueKeys := false } { o with uniqueKeys := true } r = none

/-- The keys with which an object goes on are new to the members it has, and are not repeated. -/
def Fresh (o : Options) : Reading σ → Prop
  | .members ms s => (∀ m ∈ written s, ms.contains m.1 = false) ∧ (written s).Pairwise (Repeats o)
  | .value _ => True
  | .object _ => True
  | .array _ => True
  | .items _ _ => True

theorem clean_eq {o : Options} {r : Reading σ} :
    r.Clean o ↔
      newRefusal { o with uniqueKeys := false } { o with uniqueKeys := true } r = none ∧
        ∀ r' ∈ r.calls, r'.Clean o := by
  rw [Clean, firstRefusal_eq, Option.or_eq_none_iff, List.findSome?_eq_none_iff]
  rfl

section

variable {o : Options}

/-- Only before a member is a key refused. -/
theorem newRefusal_uniqueKeys {r : Reading σ} (h : ∀ ms s, r ≠ .members ms s) :
    newRefusal { o with uniqueKeys := false } { o with uniqueKeys := true } r = none := by
  cases r with
  | value s | items before s => rfl
  | object s | array s =>
    simp only [newRefusal, refusal]
    split <;> rfl
  | members ms s => exact absurd rfl (h ms s)

theorem fresh_call {r r' : Reading σ} (h : Call r r') (hobject : ∀ s, r ≠ .object s)
    (hmembers : ∀ ms s, r ≠ .members ms s) : r'.Fresh o := by
  cases h with
  | object | array | items | slot | moreSlots | moreEmptySlots => trivial
  | members => exact absurd rfl (hobject _)
  | member | moreMembers => exact absurd rfl (hmembers _ _)

/-- An object starts with no members, so that its keys are fresh if they are not repeated. -/
theorem fresh_object {s : Scanner σ} (h : (Reading.object s).Succeeds) :
    (∀ r' ∈ (Reading.object s).calls, r'.Fresh o) ↔ (writtenMembers s).Pairwise (Repeats o) := by
  obtain ⟨v, s', h⟩ := h
  rw [object_eq] at h
  split at h
  · cases h
  rename_i hfull
  rw [writtenMembers, calls, if_neg hfull]
  rcases s.enter.opening .object with ⟨_ | _, s1⟩
  · exact iff_of_true (List.forall_mem_nil _) .nil
  · simp only [List.forall_mem_singleton, Fresh]
    exact and_iff_right fun _ _ => rfl

/-- The keys are fresh just when the next one is not refused, and the others are fresh after it. -/
theorem fresh_members {ms : Members Value} {s : Scanner σ} (h : (Reading.members ms s).Succeeds)
    (ho : s.options = { o with uniqueKeys := false }) :
    newRefusal { o with uniqueKeys := false } { o with uniqueKeys := true } (.members ms s) = none ∧
        (∀ r' ∈ (Reading.members ms s).calls, r'.Fresh o) ↔ (Reading.members ms s).Fresh o := by
  obtain ⟨ms', s', h⟩ := h
  rw [members_eq] at h
  rw [Fresh, written, newRefusal, refusal, refusal, calls]
  rcases hk : s.nextKey with ⟨_ | _ | key, s1⟩ <;> simp only [hk] at h ⊢
  · cases h
  · exact iff_of_true ⟨rfl, List.forall_mem_nil _⟩ ⟨List.forall_mem_nil _, .nil⟩
  rcases hc : s1.colon with ⟨_ | _, s2⟩ <;> simp only [hc] at h ⊢
  · cases h
  have hcall : Call (.members ms s) (.value s2) := .member hk hc
  have ho2 : s2.options = { o with uniqueKeys := false } := (call_frame hcall).1.trans ho
  simp only [ho2, Bool.false_and, Bool.true_and, Bool.false_eq_true, if_false] at h ⊢
  have hnew : (if (none : Option Failure).isSome = true then none else
      if ms.contains key = true then some (s2.faultHere (.duplicateKey key)) else none) = none ↔
        ms.contains key = false := by
    simp
  rcases hv : s2.value with ⟨_ | v, s3⟩ <;> simp only [hv] at h ⊢
  · cases h
  rcases hs : s3.separator .object with ⟨_ | _ | _, s4⟩ <;> simp only [hs] at h ⊢
  · cases h
  · have hkept : (∀ m ∈ s4.written, (addMember o ms key v).contains m.1 = false) ↔
        (∀ m ∈ s4.written, ms.contains m.1 = false) ∧ ∀ m ∈ s4.written, Repeats o (key, v) m := by
      simp only [contains_addMember (m := (key, v)), forall_and]
    have hmore : (∀ r' ∈ [Reading.value s2, .members (addMember o ms key v) s4], r'.Fresh o) ↔
        (∀ m ∈ s4.written, (addMember o ms key v).contains m.1 = false) ∧
          s4.written.Pairwise (Repeats o) :=
      List.forall_mem_cons.trans ((and_iff_right trivial).trans List.forall_mem_singleton)
    rw [hnew, addMember_uniqueKeys, hmore, hkept, List.forall_mem_cons, List.pairwise_cons,
      and_assoc, and_assoc]
  · have hlast : ∀ r' ∈ [Reading.value s2], r'.Fresh o := List.forall_mem_singleton.mpr trivial
    rw [hnew, and_iff_left hlast, List.forall_mem_singleton,
      and_iff_left (List.pairwise_singleton _ _)]

end

/-- No key is refused just when the keys are fresh here and in all the objects below. -/
theorem clean_iff {o : Options} {r : Reading σ}
    (ho : r.scanner.options = { o with uniqueKeys := false }) (h : r.Succeeds) :
    r.Clean o ↔ r.Fresh o ∧ ∀ ms ∈ r.objects, ms.Pairwise (Repeats o) := by
  induction r using induct with
  | step r ih =>
    have hcalls : (∀ r' ∈ r.calls, r'.Clean o) ↔
        (∀ r' ∈ r.calls, r'.Fresh o) ∧
          ∀ r' ∈ r.calls, ∀ ms ∈ r'.objects, ms.Pairwise (Repeats o) := by
      simp only [← forall_and]
      refine forall₂_congr fun r' hr' => ?_
      have hcall := call_of_mem hr'
      exact ih r' hr' ((call_frame hcall).1.trans ho) (h.call hcall)
    rw [clean_eq, hcalls, forall_objects, ← and_assoc, ← and_assoc]
    refine and_congr_left' ?_
    cases r with
    | value s | array s | items before s =>
      refine iff_of_true ⟨newRefusal_uniqueKeys (fun _ _ h => nomatch h), ?_⟩
        ⟨trivial, fun _ h => nomatch h⟩
      intro r' hr'
      exact fresh_call (call_of_mem hr') (fun _ h => nomatch h) fun _ _ h => nomatch h
    | object s =>
      have hnone := newRefusal_uniqueKeys (o := o) (r := .object s) fun _ _ h => nomatch h
      rw [fresh_object h, and_iff_right hnone]
      simp only [Fresh, object?, Option.some.injEq, forall_eq', true_and]
    | members ms s =>
      rw [fresh_members h ho]
      exact (and_iff_left fun _ h => nomatch h).symm

end Reading

end Scanner

theorem succeeds_of_parse {text : String} {o : Options} {v : Value} (h : parse text o = .ok v) :
    (Scanner.Reading.value (Scanner.ofText text o)).Succeeds := by
  rw [parse, Scanner.document] at h
  rcases hv : (Scanner.ofText text o).value with ⟨_ | v, s1⟩ <;> simp only [hv] at h
  · cases h
  · exact ⟨v, s1, hv⟩

open Scanner Scanner.Reading in
/-- **What the check for repeated keys lets through.** A text is accepted with it if it is accepted
without, with the same value, and in every object of it, at whatever depth, the members as they are
written only repeat the key of an earlier one that was a null and left out. -/
theorem parse_uniqueKeys (text : String) (o : Options) (v : Value) :
    parse text { o with uniqueKeys := true } = .ok v ↔
      parse text { o with uniqueKeys := false } = .ok v ∧
        ∀ ms ∈ objects (.value (ofText text { o with uniqueKeys := false })),
          ms.Pairwise (Repeats o) := by
  have hstricter : Stricter { o with uniqueKeys := false } { o with uniqueKeys := true } :=
    ⟨Nat.le_refl _, rfl, fun _ => rfl⟩
  have hstart : Framed { o with uniqueKeys := false } { o with uniqueKeys := true } 0
      (ofText text { o with uniqueKeys := false }) (ofText text { o with uniqueKeys := true }) :=
    ⟨rfl, rfl, rfl⟩
  have hclean (h : parse text { o with uniqueKeys := false } = .ok v) :
      Clean o (.value (ofText text { o with uniqueKeys := false })) ↔
        ∀ ms ∈ objects (.value (ofText text { o with uniqueKeys := false })),
          ms.Pairwise (Repeats o) :=
    (clean_iff rfl (succeeds_of_parse h)).trans (and_iff_right trivial)
  cases document_strict hstricter hstart with
  | alike hfirst hagree =>
    have hsame : parse text { o with uniqueKeys := false } =
        parse text { o with uniqueKeys := true } := hagree.1
    rw [← hsame]
    exact ⟨fun h => ⟨h, (hclean h).mp hfirst⟩, And.left⟩
  | stopped hfirst hfail =>
    constructor
    · intro h
      have hok : (ofText text { o with uniqueKeys := true }).document.1 = .ok v := h
      rw [hfail] at hok
      cases hok
    · rintro ⟨h, hpairs⟩
      have hnone := (hclean h).mpr hpairs
      rw [Clean, hfirst] at hnone
      cases hnone

open Scanner Scanner.Reading in
/-- In `{a:null,a:1}` the null has been left out when the second `a` is looked up. -/
theorem parse_repeatedNull :
    let o : Options := { dropNulls := true, uniqueKeys := true }
    (∃ v, parse "\x7ba:null,a:1\x7d" o = .ok v) ∧
      (objects (.value (ofText "\x7ba:null,a:1\x7d" o))).map (fun ms => ms.map Prod.fst) =
        [["a", "a"]] := by
  intro o
  refine ⟨?_, by decide +kernel⟩
  have hok : (parse "\x7ba:null,a:1\x7d" o).isOk = true := by decide +kernel
  cases h : parse "\x7ba:null,a:1\x7d" o with
  | ok v => exact ⟨v, rfl⟩
  | error e =>
    rw [h] at hok
    cases hok

end LaxJson
