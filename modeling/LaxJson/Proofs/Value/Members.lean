import LaxJson.Value
import Mathlib.Data.List.Basic
import Mathlib.Data.List.Induction
import Mathlib.Data.List.Nodup

/-!
# LaxJson.Proofs.Value.Members

Members put together one by one, and all at once. `collect` says what a list of members amounts to:
each key once, where it came first, with the value that it came with last. `foldl_put` shows that
putting the members in turn gives just that.

Where each key is there once, as after `collect`, a lookup finds just the members, in whatever order
they stand.
-/

namespace LaxJson
namespace Members

variable {α : Type}

/-- The keys after a member has been put are those before, and its own. -/
theorem contains_put (key : String) (a : α) (ms : Members α) (k : String) :
    (ms.put key a).contains k = (k == key || ms.contains k) := by
  induction ms with
  | nil =>
    simp only [put, contains, List.lookup_cons, List.lookup_nil]
    cases k == key <;> rfl
  | cons m rest ih =>
    obtain ⟨key', b⟩ := m
    simp only [contains] at ih
    rw [put]
    split
    · rename_i hkey
      simp only [contains, List.lookup_cons, hkey]
      cases k == key <;> rfl
    · simp only [contains, List.lookup_cons]
      cases k == key' with
      | true => exact (Bool.or_true _).symm
      | false => exact ih

/-- The value that a key came with last. -/
def latest (ms : List (String × α)) (key : String) : Option α := ms.reverse.lookup key

/-- Each key at its first place, with its last value. -/
def collect (ms : List (String × α)) : Members α :=
  (ms.map Prod.fst).eraseDups.filterMap fun key => (latest ms key).map fun a => (key, a)

theorem nodup_eraseDups (keys : List String) : keys.eraseDups.Nodup := by
  cases keys with
  | nil => exact .nil
  | cons key rest =>
    rw [List.eraseDups_cons]
    refine List.nodup_cons.mpr ⟨?_, nodup_eraseDups _⟩
    intro hmem
    have hne := (List.mem_filter.mp (List.mem_eraseDups.mp hmem)).2
    rw [beq_self_eq_true] at hne
    cases hne
termination_by keys.length
decreasing_by exact Nat.lt_succ_of_le (List.length_filter_le _ _)

theorem latest_append (ms : List (String × α)) (key : String) (a : α) (key' : String) :
    latest (ms ++ [(key, a)]) key' = if key' = key then some a else latest ms key' := by
  rw [latest, List.reverse_append, List.reverse_singleton, List.singleton_append,
    List.lookup_cons]
  by_cases h : key' = key
  · rw [if_pos h, h, beq_self_eq_true]
  · rw [if_neg h, beq_eq_false_iff_ne.mpr h]
    rfl

theorem latest_isSome {ms : List (String × α)} {key : String} (h : key ∈ ms.map Prod.fst) :
    ∃ a, latest ms key = some a := by
  obtain ⟨m, hm, hkey⟩ := List.mem_map.mp h
  refine Option.isSome_iff_exists.mp (List.lookup_isSome_iff.mpr ⟨m, List.mem_reverse.mpr hm, ?_⟩)
  rw [hkey, beq_self_eq_true]

theorem mem_of_lookup {ms : List (String × α)} {key : String} {a : α}
    (h : ms.lookup key = some a) : (key, a) ∈ ms := by
  obtain ⟨before, after, hms, -⟩ := List.lookup_eq_some_iff.mp h
  rw [hms]
  exact List.mem_append_right _ List.mem_cons_self

theorem mem_of_latest {ms : List (String × α)} {key : String} {a : α}
    (h : latest ms key = some a) : (key, a) ∈ ms :=
  List.mem_reverse.mp (mem_of_lookup h)

/-- What is collected was there. -/
theorem mem_of_collect {ms : List (String × α)} {m : String × α} (h : m ∈ collect ms) : m ∈ ms := by
  obtain ⟨key, -, hm⟩ := List.mem_filterMap.mp h
  obtain ⟨a, ha, rfl⟩ := Option.map_eq_some_iff.mp hm
  exact mem_of_latest ha

/-- Each key is collected once. -/
theorem nodup_collect (ms : List (String × α)) : ((collect ms).map Prod.fst).Nodup := by
  rw [collect, List.map_filterMap]
  refine (nodup_eraseDups _).filterMap fun key key' k hk hk' => ?_
  simp only [Option.map_map, Option.mem_def, Option.map_eq_some_iff, Function.comp_apply] at hk hk'
  obtain ⟨-, -, rfl⟩ := hk
  obtain ⟨-, -, h⟩ := hk'
  exact h.symm

theorem put_of_not_mem {ms : Members α} {key : String} (h : ∀ m ∈ ms, m.1 ≠ key) (a : α) :
    put key a ms = ms ++ [(key, a)] := by
  induction ms with
  | nil => rfl
  | cons m rest ih =>
    obtain ⟨k, b⟩ := m
    rw [put, if_neg (h (k, b) List.mem_cons_self), ih fun m hm => h m (List.mem_cons_of_mem _ hm)]
    rfl

theorem mem_of_put {ms : Members α} {key : String} {a : α} {m : String × α}
    (h : m ∈ ms.put key a) : m = (key, a) ∨ m ∈ ms := by
  induction ms with
  | nil => exact .inl (List.mem_singleton.mp h)
  | cons m' rest ih =>
    obtain ⟨k, b⟩ := m'
    rw [put] at h
    split at h
    · rename_i hkey
      rcases List.mem_cons.mp h with rfl | h
      · exact .inl (by rw [hkey])
      · exact .inr (List.mem_cons_of_mem _ h)
    · rcases List.mem_cons.mp h with rfl | h
      · exact .inr List.mem_cons_self
      · exact (ih h).imp_right (List.mem_cons_of_mem _)

theorem forall_ne_iff {ms : Members α} {key : String} :
    (∀ m ∈ ms, m.1 ≠ key) ↔ ms.contains key = false := by
  rw [contains, ← Bool.not_eq_true, List.lookup_isSome_iff, not_exists]
  refine forall_congr' fun m => ?_
  rw [not_and, beq_iff_eq]
  exact ⟨fun h hm hkey => h hm hkey.symm, fun h hm hkey => h hm hkey.symm⟩

theorem put_of_not_contains {ms : Members α} {key : String} (h : ms.contains key = false) (a : α) :
    put key a ms = ms ++ [(key, a)] :=
  put_of_not_mem (forall_ne_iff.mpr h) a

/-- Putting a key that is there changes its value and nothing else. -/
theorem put_filterMap {keys : List String} {value value' : String → Option α} {key : String} {a : α}
    (hkeys : keys.Nodup) (hkey : key ∈ keys) (hthere : ∃ b, value key = some b)
    (hnew : value' key = some a) (hsame : ∀ k, k ≠ key → value' k = value k) :
    put key a (keys.filterMap fun k => (value k).map fun a => (k, a)) =
      keys.filterMap fun k => (value' k).map fun a => (k, a) := by
  induction keys with
  | nil => cases hkey
  | cons k rest ih =>
    obtain ⟨hk, hrest⟩ := List.nodup_cons.mp hkeys
    by_cases heq : k = key
    · subst heq
      obtain ⟨b, hb⟩ := hthere
      have htail : ∀ k' ∈ rest, (value k').map (fun a => (k', a)) =
          (value' k').map fun a => (k', a) := by
        intro k' hk'
        rw [hsame k' fun h => hk (h ▸ hk')]
      rw [List.filterMap_cons_some (by rw [hb]; rfl), List.filterMap_cons_some (by rw [hnew]; rfl),
        put, if_pos rfl, List.filterMap_congr htail]
    · have hmem : key ∈ rest := by
        rcases List.mem_cons.mp hkey with h | h
        · exact absurd h.symm heq
        · exact h
      cases hv : value k with
      | none =>
        rw [List.filterMap_cons_none (by rw [hv]; rfl),
          List.filterMap_cons_none (by rw [hsame k heq, hv]; rfl), ih hrest hmem]
      | some b =>
        rw [List.filterMap_cons_some (by rw [hv]; rfl),
          List.filterMap_cons_some (by rw [hsame k heq, hv]; rfl), put, if_neg heq,
          ih hrest hmem]

theorem collect_append (ms : List (String × α)) (key : String) (a : α) :
    collect (ms ++ [(key, a)]) = put key a (collect ms) := by
  have hnew : latest (ms ++ [(key, a)]) key = some a := by rw [latest_append, if_pos rfl]
  have hsame : ∀ k, k ≠ key → latest (ms ++ [(key, a)]) k = latest ms k := by
    intro k hk
    rw [latest_append, if_neg hk]
  rw [collect, List.map_append, List.map_singleton, List.eraseDups_append]
  by_cases hkey : key ∈ ms.map Prod.fst
  · have hnone : ([key].removeAll (ms.map Prod.fst)) = [] := by simp [List.removeAll, hkey]
    rw [hnone, List.eraseDups_nil, List.append_nil, collect,
      put_filterMap (nodup_eraseDups _) (List.mem_eraseDups.mpr hkey) (latest_isSome hkey) hnew
        hsame]
  · have hone : [key].removeAll (ms.map Prod.fst) = [key] := by simp [List.removeAll, hkey]
    have hold : ∀ k ∈ (ms.map Prod.fst).eraseDups,
        (latest (ms ++ [(key, a)]) k).map (fun a => (k, a)) =
          (latest ms k).map fun a => (k, a) := by
      intro k hk
      rw [hsame k]
      rintro rfl
      exact hkey (List.mem_eraseDups.mp hk)
    have habsent : ∀ m ∈ collect ms, m.1 ≠ key := by
      rintro m hm rfl
      exact hkey (List.mem_map_of_mem (mem_of_collect hm))
    rw [hone, List.eraseDups_cons, List.filterMap_append, List.filterMap_congr hold,
      put_of_not_mem habsent]
    simp only [List.filter_nil, List.eraseDups_nil, List.filterMap_cons, hnew, Option.map_some,
      List.filterMap_nil]
    rfl

/-- Putting members in one after the other collects them. -/
theorem foldl_put (ms : List (String × α)) :
    ms.foldl (fun acc m => put m.1 m.2 acc) [] = collect ms := by
  induction ms using List.reverseRecOn with
  | nil => rfl
  | append_singleton ms m ih =>
    rw [List.foldl_append, ih, List.foldl_cons, List.foldl_nil, collect_append]

/-! ## Each key once -/

/-- Where no key occurs twice, each member is what its key leads to. -/
theorem lookup_eq_some_iff {ms : List (String × α)} (h : (ms.map Prod.fst).Nodup) {key : String}
    {a : α} : ms.lookup key = some a ↔ (key, a) ∈ ms := by
  refine ⟨mem_of_lookup, fun hmem => ?_⟩
  induction ms with
  | nil => cases hmem
  | cons m rest ih =>
    obtain ⟨k, b⟩ := m
    obtain ⟨hk, hrest⟩ := List.nodup_cons.mp h
    rw [List.lookup_cons]
    rcases List.mem_cons.mp hmem with heq | hlater
    · cases heq
      rw [beq_self_eq_true]
    · have hne : key ≠ k := by
        rintro rfl
        exact hk (List.mem_map.mpr ⟨_, hlater, rfl⟩)
      rw [beq_eq_false_iff_ne.mpr hne]
      exact ih hrest hlater

/-- The order of members does not matter for what a key leads to. -/
theorem lookup_perm {ms ms' : List (String × α)} (hperm : ms.Perm ms')
    (h : (ms.map Prod.fst).Nodup) (key : String) : ms.lookup key = ms'.lookup key := by
  have h' : (ms'.map Prod.fst).Nodup := (hperm.map Prod.fst).nodup_iff.mp h
  ext a
  rw [lookup_eq_some_iff h, lookup_eq_some_iff h', hperm.mem_iff]

theorem lookup_eq_none_iff {ms : List (String × α)} {key : String} :
    ms.lookup key = none ↔ key ∉ ms.map Prod.fst := by
  rw [← Option.not_isSome_iff_eq_none, List.lookup_isSome_iff]
  simp

end Members
end LaxJson
