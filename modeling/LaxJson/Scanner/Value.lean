import LaxJson.Scanner.Nested

/-!
# LaxJson.Scanner.Value

Reading a value: a quoted string, an unquoted literal, an object or an array. `value`, `object`,
`members`, `array` and `items` are the reading functions; `value_eq` to `items_eq` say what each
does, in terms of the others.
-/

namespace LaxJson
namespace Scanner

variable {σ : Type} [CharSource σ] [FiniteSource σ]

/-- Reads the next value. -/
def value (s : Scanner σ) : Except Failure Value × Scanner σ := (valueStep s).result

/-- Reads an object, from its opening bracket on. -/
def object (s : Scanner σ) : Except Failure Value × Scanner σ := (objectStep s).result

/-- Reads the members of an open object that come after those in `ms`, and its closing bracket. -/
def members (ms : Members Value) (s : Scanner σ) : Except Failure (Members Value) × Scanner σ :=
  (membersStep ms s).result

/-- Reads an array, from its opening bracket on. -/
def array (s : Scanner σ) : Except Failure Value × Scanner σ := (arrayStep s).result

/-- Reads the slots of an open array that come after those in `items`, newest first, and its
closing bracket. -/
def items (before : List Value) (s : Scanner σ) : Except Failure (List Value) × Scanner σ :=
  (itemsStep before s).result

theorem value_eq (s : Scanner σ) :
    s.value =
      match s.nextSolid with
      | (.error e, s1) => (.error e, s1)
      | (.ok c, s1) =>
        if c = '"' ∨ c = '\'' then
          match s1.quoted c with
          | (.error e, s2) => (.error e, s2)
          | (.ok text, s2) => (.ok (.text text), s2)
        else
          match s1.stepBack with
          | (.error e, s2) => (.error e, s2)
          | (.ok (), s2) =>
            if c = Container.object.opening then s2.object
            else if c = Container.array.opening then s2.array
            else
              match s2.bare with
              | (.error e, s3) => (.error e, s3)
              | (.ok text, s3) =>
                if text = "" then s3.fail .missingValue else (.ok (Literal.value text), s3) := by
  unfold value
  rw [valueStep]
  split
  · rename_i h
    simp only [h, Progress.error]
  · rename_i c s1 h
    simp only [h]
    split
    · split
      · rename_i ht
        simp only [ht, Progress.error]
      · rename_i ht
        simp only [ht, Progress.ok]
    · split
      · rename_i hb
        simp only [hb, Progress.error]
      · rename_i s2 hb
        simp only [hb]
        split
        · rfl
        · split
          · rfl
          · split
            · rename_i ht
              simp only [ht, Progress.error]
            · rename_i ht
              simp only [ht]
              split <;> rfl

theorem object_eq (s : Scanner σ) :
    s.object =
      if s.full then s.fail (.tooDeep .object)
      else
        match s.enter.opening .object with
        | (.error e, s1) => (.error e, s1.leave)
        | (.ok (), s1) =>
          match members [] s1 with
          | (.error e, s2) => (.error e, s2.leave)
          | (.ok ms, s2) => (.ok (.object ms), s2.leave) := by
  unfold object
  rw [objectStep]
  split
  · rfl
  · split
    · rename_i ho
      simp only [ho, Progress.error]
    · rename_i ho
      simp only [ho, members]
      split <;> rename_i hm
      · simp only [hm, Progress.error]
      · simp only [hm, Progress.ok]

theorem members_eq (ms : Members Value) (s : Scanner σ) :
    members ms s =
      match s.nextKey with
      | (.error e, s1) => (.error e, s1)
      | (.ok none, s1) => (.ok ms, s1)
      | (.ok (some key), s1) =>
        match s1.colon with
        | (.error e, s2) => (.error e, s2)
        | (.ok (), s2) =>
          if s2.options.uniqueKeys && ms.contains key then s2.fail (.duplicateKey key)
          else
            match s2.value with
            | (.error e, s3) => (.error e, s3)
            | (.ok v, s3) =>
              match s3.separator .object with
              | (.error e, s4) => (.error e, s4)
              | (.ok true, s4) => (.ok (addMember s2.options ms key v), s4)
              | (.ok false, s4) => members (addMember s2.options ms key v) s4 := by
  unfold members
  rw [membersStep]
  split
  · rename_i hk
    simp only [hk, Progress.error]
  · rename_i hk
    simp only [hk, Progress.ok]
  · rename_i hk
    simp only [hk]
    split
    · rename_i hc
      simp only [hc, Progress.error]
    · rename_i hc
      simp only [hc]
      split
      · rfl
      · simp only [value]
        split <;> rename_i hv
        · simp only [hv, Progress.error]
        · simp only [hv]
          split <;> rename_i hs
          · simp only [hs, Progress.error]
          · simp only [hs, Progress.ok]
          · simp only [hs, Progress.since]

theorem array_eq (s : Scanner σ) :
    s.array =
      if s.full then s.fail (.tooDeep .array)
      else
        match s.enter.opening .array with
        | (.error e, s1) => (.error e, s1.leave)
        | (.ok (), s1) =>
          match s1.closes .array with
          | (.error e, s2) => (.error e, s2.leave)
          | (.ok true, s2) => (.ok (.array []), s2.leave)
          | (.ok false, s2) =>
            match items [] s2 with
            | (.error e, s3) => (.error e, s3.leave)
            | (.ok vs, s3) => (.ok (.array vs), s3.leave) := by
  unfold array
  rw [arrayStep]
  split
  · rfl
  · split
    · rename_i ho
      simp only [ho, Progress.error]
    · rename_i ho
      simp only [ho]
      split <;> rename_i hc
      · simp only [hc, Progress.error]
      · simp only [hc, Progress.ok]
      · simp only [hc, items]
        split <;> rename_i hi
        · simp only [hi, Progress.error]
        · simp only [hi, Progress.ok]

theorem items_eq (before : List Value) (s : Scanner σ) :
    items before s =
      match s.emptySlot with
      | (.error e, s1) => (.error e, s1)
      | (.ok true, s1) =>
        match s1.separator .array with
        | (.error e, s2) => (.error e, s2)
        | (.ok true, s2) => (.ok (.null :: before).reverse, s2)
        | (.ok false, s2) => items (.null :: before) s2
      | (.ok false, s1) =>
        match s1.value with
        | (.error e, s2) => (.error e, s2)
        | (.ok v, s2) =>
          match s2.separator .array with
          | (.error e, s3) => (.error e, s3)
          | (.ok true, s3) => (.ok (v :: before).reverse, s3)
          | (.ok false, s3) => items (v :: before) s3 := by
  unfold items
  rw [itemsStep]
  split
  · rename_i he
    simp only [he, Progress.error]
  · rename_i he
    simp only [he]
    split <;> rename_i hs
    · simp only [hs, Progress.error]
    · simp only [hs, Progress.ok]
    · simp only [hs, Progress.since]
  · rename_i he
    simp only [he, value]
    split <;> rename_i hv
    · simp only [hv, Progress.error]
    · simp only [hv]
      split <;> rename_i hs
      · simp only [hs, Progress.error]
      · simp only [hs, Progress.ok]
      · simp only [hs, Progress.since]

/-- A value that is read has used something up. -/
theorem unread_value {s s' : Scanner σ} {v : Value} (h : s.value = (.ok v, s')) :
    s'.unread < s.unread := by
  have := (valueStep s).used v (by rw [← value, h])
  rwa [← value, h] at this

end Scanner

end LaxJson
