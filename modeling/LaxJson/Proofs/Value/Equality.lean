import LaxJson.Proofs.Value.Members
import Mathlib.Data.List.Perm.Subperm

/-!
# LaxJson.Proofs.Value.Equality

Equality of values. Numbers are compared as numbers, so that a NaN would not even equal itself, and
objects are compared without their order.

* `Value.Sound`: every decimal number in the value is finite, and no object has a key twice.
* `same_iff`: sound values are equal if they look alike and every step into them leads to equal
  values, or nowhere in both.
* `same_refl`, `same_symm`, `same_trans`: on sound values equality is an equivalence.
* `same_part`: equal values have equal parts along the same paths.
* `Permuted`: the same value with the members of its objects in another order, at any depth.
  `Permuted.same_congr` says that equality takes no notice of it.
-/

namespace LaxJson

/-! ## Numbers -/

namespace Binary64

variable {x y z : Binary64}

theorem isNaN_of_isFinite (h : x.isFinite = true) : x.isNaN = false := by
  rw [isFinite, decide_eq_true_iff] at h
  exact decide_eq_false (Nat.not_lt.mpr (Nat.le_of_lt h))

/-- Equality is decided by the bits except for the two zeros. -/
theorem same_iff : x.same y = true ↔
    (x.isNaN = false ∧ y.isNaN = false) ∧ (x.bits = y.bits ∨ x.pattern = 0 ∧ y.pattern = 0) := by
  simp only [same, Bool.and_eq_true, Bool.or_eq_true, Bool.not_eq_true', beq_iff_eq]

theorem same_refl (h : x.isFinite = true) : x.same x = true :=
  same_iff.mpr ⟨⟨isNaN_of_isFinite h, isNaN_of_isFinite h⟩, .inl rfl⟩

theorem same_symm (h : x.same y = true) : y.same x = true := by
  obtain ⟨⟨hx, hy⟩, hxy⟩ := same_iff.mp h
  exact same_iff.mpr ⟨⟨hy, hx⟩, hxy.imp Eq.symm And.symm⟩

theorem same_trans (h : x.same y = true) (h' : y.same z = true) : x.same z = true := by
  obtain ⟨⟨hx, -⟩, hxy⟩ := same_iff.mp h
  obtain ⟨⟨-, hz⟩, hyz⟩ := same_iff.mp h'
  refine same_iff.mpr ⟨⟨hx, hz⟩, ?_⟩
  rcases hxy with hxy | ⟨hx0, hy0⟩
  · obtain rfl : x = y := congrArg Binary64.mk hxy
    exact hyz
  rcases hyz with hyz | ⟨-, hz0⟩
  · obtain rfl : y = z := congrArg Binary64.mk hyz
    exact .inr ⟨hx0, hy0⟩
  · exact .inr ⟨hx0, hz0⟩

end Binary64

/-! ## Optional values -/

section Optional

variable {α : Type} {r : α → α → Prop} {x y z : Option α}

theorem rel_none_iff (h : Option.Rel r x y) : x = none ↔ y = none := by
  cases h <;> simp

theorem exists_of_rel_some {a : α} (h : Option.Rel r (some a) y) : ∃ b, y = some b ∧ r a b := by
  cases h with
  | some hab => exact ⟨_, rfl, hab⟩

theorem rel_refl (hr : ∀ a, x = some a → r a a) : Option.Rel r x x := by
  cases x with
  | none => exact .none
  | some a => exact .some (hr a rfl)

theorem rel_symm (hr : ∀ a b, x = some a → y = some b → r a b → r b a) (h : Option.Rel r x y) :
    Option.Rel r y x := by
  cases h with
  | none => exact .none
  | some hab => exact .some (hr _ _ rfl rfl hab)

theorem rel_trans
    (hr : ∀ a b c, x = some a → y = some b → z = some c → r a b → r b c → r a c)
    (h : Option.Rel r x y) (h' : Option.Rel r y z) : Option.Rel r x z := by
  cases h with
  | none => exact h'
  | some hab =>
    obtain ⟨c, rfl, hbc⟩ := exists_of_rel_some h'
    exact .some (hr _ _ _ rfl rfl rfl hab hbc)

end Optional

namespace Members

/-- Lists of as many members, each key once: if the keys of the one are keys of the other, they are
the same. -/
theorem keys_subset {α β : Type} {ms : List (String × α)} {ms' : List (String × β)}
    (h : (ms.map Prod.fst).Nodup) (hsub : ms.map Prod.fst ⊆ ms'.map Prod.fst)
    (hlength : ms.length = ms'.length) : ms'.map Prod.fst ⊆ ms.map Prod.fst := by
  refine ((h.subperm hsub).perm_of_length_le (Nat.le_of_eq ?_)).symm.subset
  rw [List.length_map, List.length_map, hlength]

end Members

namespace Value

/-! ## Steps into a value -/

inductive Step where
  | item (n : Nat)
  | member (key : String)

/-- Where the step leads to, if it leads anywhere. -/
def child? : Value → Step → Option Value
  | .array vs, .item n => vs[n]?
  | .object ms, .member key => ms.lookup key
  | _, _ => none

/-- Where the steps lead to, one after the other. -/
def part? : List Step → Value → Option Value
  | [], v => some v
  | step :: path, v => (v.child? step).bind (part? path)

/-- A step leads to something smaller. -/
theorem sizeOf_child {u v : Value} {step : Step} (h : v.child? step = some u) :
    sizeOf u < sizeOf v := by
  cases v with
  | null | boolean b | integer n | decimal x | text s => cases h
  | array vs =>
    cases step with
    | item n =>
      have hlt := List.sizeOf_lt_of_mem (List.mem_of_getElem? h)
      rw [array.sizeOf_spec]
      omega
    | member key => cases h
  | object ms =>
    cases step with
    | item n => cases h
    | member key =>
      have hlt := List.sizeOf_lt_of_mem (Members.mem_of_lookup h)
      rw [Prod.mk.sizeOf_spec] at hlt
      rw [object.sizeOf_spec]
      omega

/-- What holds of a value whenever it holds of all that a step leads to holds of every value. -/
@[elab_as_elim]
theorem child_induct {P : Value → Prop}
    (step : ∀ v, (∀ step u, child? v step = some u → P u) → P v) (v : Value) : P v :=
  step v fun _ u _ => child_induct step u
termination_by sizeOf v
decreasing_by exact sizeOf_child ‹_›

/-- Decimal numbers are finite, and no key occurs twice in an object, at any depth. -/
inductive Sound : Value → Prop where
  | null : Sound .null
  | boolean (b : Bool) : Sound (.boolean b)
  | integer (n : Int64) : Sound (.integer n)
  | decimal {x : Binary64} : x.isFinite = true → Sound (.decimal x)
  | text (s : String) : Sound (.text s)
  | array {vs : List Value} : (∀ v ∈ vs, Sound v) → Sound (.array vs)
  | object {ms : List (String × Value)} :
    (ms.map Prod.fst).Nodup → (∀ m ∈ ms, Sound m.2) → Sound (.object ms)

variable {u v w : Value} {vs ws : List Value} {as bs : List (String × Value)}

theorem sound_array_iff : Sound (.array vs) ↔ ∀ v ∈ vs, Sound v := by
  constructor
  · intro h
    cases h with
    | array hitems => exact hitems
  · exact .array

theorem sound_object_iff :
    Sound (.object as) ↔ (as.map Prod.fst).Nodup ∧ ∀ m ∈ as, Sound m.2 := by
  constructor
  · intro h
    cases h with
    | object hkeys hmembers => exact ⟨hkeys, hmembers⟩
  · rintro ⟨hkeys, hmembers⟩
    exact .object hkeys hmembers

theorem Sound.keys (h : Sound (.object as)) : (as.map Prod.fst).Nodup := (sound_object_iff.mp h).1

theorem Sound.child (h : Sound v) {step : Step} (hu : v.child? step = some u) : Sound u := by
  cases v with
  | null | boolean b | integer n | decimal x | text s => cases hu
  | array vs =>
    cases step with
    | item n => exact sound_array_iff.mp h u (List.mem_of_getElem? hu)
    | member key => cases hu
  | object as =>
    cases step with
    | item n => cases hu
    | member key => exact (sound_object_iff.mp h).2 (key, u) (Members.mem_of_lookup hu)

/-! ## One step of the comparison -/

/-- The values are equal as far as can be told without a step into them. -/
def alike : Value → Value → Bool
  | .null, .null => true
  | .boolean a, .boolean b => a == b
  | .integer a, .integer b => a == b
  | .decimal a, .decimal b => a.same b
  | .text a, .text b => a == b
  | .array _, .array _ => true
  | .object _, .object _ => true
  | _, _ => false

theorem alike_refl (h : Sound v) : alike v v = true := by
  cases h with
  | decimal hx => exact Binary64.same_refl hx
  | null | boolean b | integer n | text s | array hitems | object hkeys hmembers => simp [alike]

theorem alike_symm (h : alike v w = true) : alike w v = true := by
  cases v with
  | decimal x =>
    cases w with
    | decimal y => exact Binary64.same_symm h
    | null | boolean b | integer n | text s | array ws | object bs => cases h
  | null | boolean b | integer n | text s | array vs | object as => cases w <;> simp_all [alike]

theorem alike_trans (h : alike u v = true) (h' : alike v w = true) : alike u w = true := by
  cases v with
  | decimal y =>
    cases u with
    | decimal x =>
      cases w with
      | decimal z => exact Binary64.same_trans h h'
      | null | boolean b | integer n | text s | array ws | object bs => cases h'
    | null | boolean b | integer n | text s | array vs | object as => cases h
  | null | boolean b | integer n | text s | array vs | object as =>
    cases u <;> cases w <;> simp_all [alike]

/-- Arrays are equal if they have equal values in the same places. -/
theorem same_array_iff : same (.array vs) (.array ws) = true ↔
    ∀ n : Nat, Option.Rel (fun v w => same v w = true) vs[n]? ws[n]? := by
  rw [same]
  induction vs generalizing ws with
  | nil =>
    cases ws with
    | nil => exact iff_of_true rfl fun n => .none
    | cons w ws => exact iff_of_false (by simp [sameItems]) fun h => nomatch h 0
  | cons v vs ih =>
    cases ws with
    | nil => exact iff_of_false (by simp [sameItems]) fun h => nomatch h 0
    | cons w ws =>
      rw [sameItems, Bool.and_eq_true, ih]
      constructor
      · rintro ⟨hhead, htail⟩ (_ | n)
        · exact .some hhead
        · exact htail n
      · intro h
        obtain ⟨_, ⟨⟩, hhead⟩ := exists_of_rel_some (h 0)
        exact ⟨hhead, fun n => h (n + 1)⟩

theorem sameMembers_iff : sameMembers as bs = true ↔
    ∀ m ∈ as, ∃ b, bs.lookup m.1 = some b ∧ same m.2 b = true := by
  induction as with
  | nil => simp [sameMembers]
  | cons m as ih =>
    obtain ⟨key, a⟩ := m
    rw [sameMembers, Bool.and_eq_true, ih, List.forall_mem_cons]
    refine and_congr_left fun _ => ?_
    cases bs.lookup key <;> simp

/-- Objects are equal if the same keys lead to equal values. -/
theorem same_object_iff (has : (as.map Prod.fst).Nodup) (hbs : (bs.map Prod.fst).Nodup) :
    same (.object as) (.object bs) = true ↔
      ∀ key, Option.Rel (fun v w => same v w = true) (as.lookup key) (bs.lookup key) := by
  rw [same, Bool.and_eq_true, beq_iff_eq, sameMembers_iff]
  constructor
  · rintro ⟨hlength, hmembers⟩ key
    cases ha : as.lookup key with
    | some a =>
      obtain ⟨b, hb, hab⟩ := hmembers (key, a) (Members.mem_of_lookup ha)
      rw [hb]
      exact .some hab
    | none =>
      -- there are as many keys on the right, so that none is left for a key of its own
      have hkeys : as.map Prod.fst ⊆ bs.map Prod.fst := by
        intro key hkey
        obtain ⟨m, hm, rfl⟩ := List.mem_map.mp hkey
        obtain ⟨b, hb, -⟩ := hmembers m hm
        exact List.mem_map.mpr ⟨_, Members.mem_of_lookup hb, rfl⟩
      have hb := mt (@Members.keys_subset _ _ _ _ has hkeys hlength key)
        (Members.lookup_eq_none_iff.mp ha)
      rw [Members.lookup_eq_none_iff.mpr hb]
      exact .none
  · intro h
    have hkeys : ∀ key, key ∈ as.map Prod.fst ↔ key ∈ bs.map Prod.fst := by
      intro key
      rw [← not_iff_not, ← Members.lookup_eq_none_iff, ← Members.lookup_eq_none_iff]
      exact rel_none_iff (h key)
    have hperm := (List.perm_ext_iff_of_nodup has hbs).mpr hkeys
    refine ⟨?_, fun m hm => ?_⟩
    · rw [← List.length_map (f := Prod.fst), hperm.length_eq, List.length_map]
    · have hrel := h m.1
      rw [(Members.lookup_eq_some_iff has).mpr hm] at hrel
      exact exists_of_rel_some hrel

/-- Equality of sound values, one step at a time. -/
theorem same_iff (hv : Sound v) (hw : Sound w) : same v w = true ↔
    alike v w = true ∧
      ∀ step, Option.Rel (fun v w => same v w = true) (v.child? step) (w.child? step) := by
  cases v with
  | null | boolean b | integer n | decimal x | text s =>
    cases w <;> simp [same, alike, child?]
  | array vs =>
    cases w with
    | array ws =>
      rw [same_array_iff]
      refine ⟨fun h => ⟨rfl, ?_⟩, fun h n => h.2 (.item n)⟩
      rintro (n | key)
      · exact h n
      · exact .none
    | null | boolean b | integer n | decimal x | text s | object bs => simp [same, alike]
  | object as =>
    cases w with
    | object bs =>
      rw [same_object_iff hv.keys hw.keys]
      refine ⟨fun h => ⟨rfl, ?_⟩, fun h key => h.2 (.member key)⟩
      rintro (n | key)
      · exact .none
      · exact h key
    | null | boolean b | integer n | decimal x | text s | array ws => simp [same, alike]

/-! ## An equivalence -/

theorem same_refl (h : Sound v) : same v v = true := by
  induction v using child_induct with
  | step v ih =>
    refine (same_iff h h).mpr ⟨alike_refl h, fun step => rel_refl ?_⟩
    intro u hu
    exact ih step u hu (h.child hu)

theorem same_symm (hv : Sound v) (hw : Sound w) (h : same v w = true) : same w v = true := by
  induction v using child_induct generalizing w with
  | step v ih =>
    obtain ⟨halike, hrel⟩ := (same_iff hv hw).mp h
    refine (same_iff hw hv).mpr ⟨alike_symm halike, fun step => rel_symm ?_ (hrel step)⟩
    intro a b ha hb
    exact ih step a ha (hv.child ha) (hw.child hb)

theorem same_trans (hu : Sound u) (hv : Sound v) (hw : Sound w) (h : same u v = true)
    (h' : same v w = true) : same u w = true := by
  induction u using child_induct generalizing v w with
  | step u ih =>
    obtain ⟨halike, hrel⟩ := (same_iff hu hv).mp h
    obtain ⟨halike', hrel'⟩ := (same_iff hv hw).mp h'
    refine (same_iff hu hw).mpr
      ⟨alike_trans halike halike', fun step => rel_trans ?_ (hrel step) (hrel' step)⟩
    intro a b c ha hb hc
    exact ih step a ha (hu.child ha) (hv.child hb) (hw.child hc)

/-- Equal values have equal parts along the same paths. -/
theorem same_part (hv : Sound v) (hw : Sound w) (h : same v w = true) (path : List Step) :
    Option.Rel (fun v w => same v w = true) (part? path v) (part? path w) := by
  induction path generalizing v w with
  | nil => exact .some h
  | cons step path ih =>
    rw [part?, part?]
    have hrel := ((same_iff hv hw).mp h).2 step
    cases ha : v.child? step with
    | none =>
      rw [(rel_none_iff hrel).mp ha]
      exact .none
    | some a =>
      rw [ha] at hrel
      obtain ⟨b, hb, hab⟩ := exists_of_rel_some hrel
      rw [hb]
      exact ih (hv.child ha) (hw.child hb) hab

theorem integer_of_same {n : Int64} (h : same (.integer n) v = true) : v = .integer n := by
  cases v with
  | integer m =>
    rw [same, beq_iff_eq] at h
    rw [h]
  | null | boolean b | decimal x | text s | array vs | object as => cases h

/-- Equal values have the same integers in the same places, and no decimal number instead. -/
theorem integer_part_of_same (hv : Sound v) (hw : Sound w) (h : same v w = true) {path : List Step}
    {n : Int64} (hn : part? path v = some (.integer n)) : part? path w = some (.integer n) := by
  have hrel := same_part hv hw h path
  rw [hn] at hrel
  obtain ⟨b, hb, hsame⟩ := exists_of_rel_some hrel
  rw [hb, integer_of_same hsame]

/-! ## The order of members -/

/-- The members of objects are in another order, at any depth. -/
inductive Permuted : Value → Value → Prop where
  | refl (v : Value) : Permuted v v
  | trans {u v w : Value} : Permuted u v → Permuted v w → Permuted u w
  | members {ms ms' : List (String × Value)} : ms.Perm ms' → Permuted (.object ms) (.object ms')
  | item {v v' : Value} (before after : List Value) :
    Permuted v v' → Permuted (.array (before ++ v :: after)) (.array (before ++ v' :: after))
  | member {v v' : Value} (before : List (String × Value)) (key : String)
    (after : List (String × Value)) : Permuted v v' →
      Permuted (.object (before ++ (key, v) :: after)) (.object (before ++ (key, v') :: after))

/-- Members in another order lead to the same values. -/
theorem same_of_perm (hperm : as.Perm bs) (h : Sound (.object as)) :
    same (.object as) (.object bs) = true := by
  obtain ⟨hkeys, hmembers⟩ := sound_object_iff.mp h
  refine (same_object_iff hkeys ((hperm.map Prod.fst).nodup hkeys)).mpr fun key => ?_
  rw [← Members.lookup_perm hperm hkeys key]
  exact rel_refl fun a ha => same_refl (hmembers (key, a) (Members.mem_of_lookup ha))

/-- An item may be replaced by an equal one. -/
theorem same_array_congr {before after : List Value} (hbefore : ∀ v ∈ before, Sound v)
    (hafter : ∀ v ∈ after, Sound v) (h : same v w = true) :
    same (.array (before ++ v :: after)) (.array (before ++ w :: after)) = true := by
  refine same_array_iff.mpr fun n => ?_
  rw [List.getElem?_append, List.getElem?_append]
  split
  · exact rel_refl fun a ha => same_refl (hbefore a (List.mem_of_getElem? ha))
  · cases n - before.length with
    | zero => exact .some h
    | succ k => exact rel_refl fun a ha => same_refl (hafter a (List.mem_of_getElem? ha))

/-- So may the value of a member. -/
theorem same_object_congr {before after : List (String × Value)} {key : String}
    (hkeys : ((before ++ (key, v) :: after).map Prod.fst).Nodup)
    (hkeys' : ((before ++ (key, w) :: after).map Prod.fst).Nodup)
    (hbefore : ∀ m ∈ before, Sound m.2) (hafter : ∀ m ∈ after, Sound m.2) (h : same v w = true) :
    same (.object (before ++ (key, v) :: after)) (.object (before ++ (key, w) :: after)) =
      true := by
  refine (same_object_iff hkeys hkeys').mpr fun k => ?_
  rw [List.lookup_append, List.lookup_append, List.lookup_cons, List.lookup_cons]
  cases ha : before.lookup k with
  | some a => exact .some (same_refl (hbefore (k, a) (Members.mem_of_lookup ha)))
  | none =>
    cases k == key with
    | true => exact .some h
    | false => exact rel_refl fun a ha => same_refl (hafter (k, a) (Members.mem_of_lookup ha))

theorem Permuted.sound_same (h : Permuted v w) (hv : Sound v) : Sound w ∧ same v w = true := by
  induction h with
  | refl v => exact ⟨hv, same_refl hv⟩
  | trans _ _ ih ih' =>
    obtain ⟨hu, hsame⟩ := ih hv
    obtain ⟨hw, hsame'⟩ := ih' hu
    exact ⟨hw, same_trans hv hu hw hsame hsame'⟩
  | members hperm =>
    obtain ⟨hkeys, hmembers⟩ := sound_object_iff.mp hv
    refine ⟨.object ((hperm.map Prod.fst).nodup hkeys) ?_, same_of_perm hperm hv⟩
    exact fun m hm => hmembers m (hperm.mem_iff.mpr hm)
  | item before after _ ih =>
    rw [sound_array_iff, List.forall_mem_append, List.forall_mem_cons] at hv ⊢
    obtain ⟨hbefore, hv, hafter⟩ := hv
    obtain ⟨hv', hsame⟩ := ih hv
    exact ⟨⟨hbefore, hv', hafter⟩, same_array_congr hbefore hafter hsame⟩
  | @member v v' before key after _ ih =>
    rw [sound_object_iff, List.forall_mem_append, List.forall_mem_cons] at hv
    obtain ⟨hkeys, hbefore, hv, hafter⟩ := hv
    obtain ⟨hv', hsame⟩ := ih hv
    have hkeys' : ((before ++ (key, v') :: after).map Prod.fst).Nodup := by
      rw [List.map_append, List.map_cons] at hkeys ⊢
      exact hkeys
    refine ⟨.object hkeys' ?_, same_object_congr hkeys hkeys' hbefore hafter hsame⟩
    exact List.forall_mem_append.mpr ⟨hbefore, List.forall_mem_cons.mpr ⟨hv', hafter⟩⟩

/-- Whether values are equal does not depend on the order of their members. -/
theorem Permuted.same_congr {v' w' : Value} (h : Permuted v v') (h' : Permuted w w')
    (hv : Sound v) (hw : Sound w) : same v' w' = same v w := by
  obtain ⟨hv', hvv'⟩ := h.sound_same hv
  obtain ⟨hw', hww'⟩ := h'.sound_same hw
  rw [Bool.eq_iff_iff]
  constructor
  · intro hsame
    exact same_trans hv hw' hw (same_trans hv hv' hw' hvv' hsame) (same_symm hw hw' hww')
  · intro hsame
    exact same_trans hv' hv hw' (same_symm hv hv' hvv') (same_trans hv hw hw' hsame hww')

end Value
end LaxJson
