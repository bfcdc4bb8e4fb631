import LaxJson.Scanner.Field
import LaxJson.Scanner.Quoted

/-!
# LaxJson.Scanner.Punctuation

The pieces of an object or array apart from its values: brackets, keys, colons, separators, and
empty array slots. The notation is lenient: a key may go unquoted, semicolons also separate
members, and a separator may stand before the closing bracket.
-/

namespace LaxJson

/-- The characters that may follow a member or an item when another one is to come. -/
def Container.separators : Container → List Char
  | .object => [',', ';']
  | .array => [',']

namespace Scanner

variable {σ : Type} [CharSource σ] [FiniteSource σ]

/-- The bracket that opens a container. -/
def opening (s : Scanner σ) (k : Container) : Except Failure Unit × Scanner σ :=
  match s.nextSolid with
  | (.error e, s1) => (.error e, s1)
  | (.ok c, s1) => if c = k.opening then (.ok (), s1) else s1.fail (.missingOpening k)

/-- Whether the container is closed here; if not, nothing but blanks is used up. -/
def closes (s : Scanner σ) (k : Container) : Except Failure Bool × Scanner σ :=
  match s.nextSolid with
  | (.error e, s1) => (.error e, s1)
  | (.ok c, s1) =>
    if c = k.closing then (.ok true, s1)
    else
      match s1.stepBack with
      | (.error e, s2) => (.error e, s2)
      | (.ok (), s2) => (.ok false, s2)

/-- What follows a member or an item. The answer says whether the container is closed; it may be
closed right after a separator. -/
def separator (s : Scanner σ) (k : Container) : Except Failure Bool × Scanner σ :=
  match s.nextSolid with
  | (.error e, s1) => (.error e, s1)
  | (.ok c, s1) =>
    if c ∈ k.separators then s1.closes k
    else if c = k.closing then (.ok true, s1)
    else s1.fail (.missingSeparator k)

/-- The key of the next member, or `none` at the end of the object. -/
def nextKey (s : Scanner σ) : Except Failure (Option String) × Scanner σ :=
  match s.nextSolid with
  | (.error e, s1) => (.error e, s1)
  | (.ok c, s1) =>
    if c = endMark then s1.fail (.missingClosing .object)
    else if c = Container.object.closing then (.ok none, s1)
    else if c = '"' ∨ c = '\'' then
      match s1.quoted c with
      | (.error e, s2) => (.error e, s2)
      | (.ok key, s2) => (.ok (some key), s2)
    else if c = Container.object.opening ∨ c = Container.array.opening then s1.fail .compositeKey
    else
      match s1.stepBack with
      | (.error e, s2) => (.error e, s2)
      | (.ok (), s2) =>
        match s2.bare with
        | (.error e, s3) => (.error e, s3)
        | (.ok key, s3) => if key = "" then s3.fail .missingValue else (.ok (some key), s3)

/-- The colon between a key and its value. -/
def colon (s : Scanner σ) : Except Failure Unit × Scanner σ :=
  match s.nextSolid with
  | (.error e, s1) => (.error e, s1)
  | (.ok c, s1) => if c = ':' then (.ok (), s1) else s1.fail .missingColon

/-- Whether the next array slot is empty. -/
def emptySlot (s : Scanner σ) : Except Failure Bool × Scanner σ :=
  match s.nextSolid with
  | (.error e, s1) => (.error e, s1)
  | (.ok c, s1) =>
    if c = endMark then s1.fail (.missingClosing .array)
    else
      match s1.stepBack with
      | (.error e, s2) => (.error e, s2)
      | (.ok (), s2) => (.ok (c = ','), s2)

/-! ## What punctuation uses up -/

theorem unread_closes {s s' : Scanner σ} {k : Container} {b : Bool}
    (h : s.closes k = (.ok b, s')) : s'.unread ≤ s.unread := by
  unfold closes at h
  split at h
  · cases h
  · rename_i hn
    have ht := nextSolid_took hn
    split at h
    · cases h
      exact ht.le
    · split at h <;> cases h
      rename_i hb
      exact unread_stepBack ht hb

theorem unread_opening {s s' : Scanner σ} {k : Container} (h : s.opening k = (.ok (), s')) :
    s'.unread < s.unread := by
  unfold opening at h
  split at h
  · cases h
  · rename_i hn
    split at h
    · rename_i hc
      cases h
      exact (nextSolid_took hn).lt (by subst hc; cases k <;> decide)
    · cases h

theorem unread_separator {s s' : Scanner σ} {k : Container} {b : Bool}
    (h : s.separator k = (.ok b, s')) : s'.unread < s.unread := by
  unfold separator at h
  split at h
  · cases h
  · rename_i hn
    have ht := nextSolid_took hn
    split at h
    · rename_i hc
      exact Nat.lt_of_le_of_lt (unread_closes h)
        (ht.lt (by rintro rfl; cases k <;> simp [Container.separators, endMark] at hc))
    · split at h
      · rename_i hc
        cases h
        exact ht.lt (by subst hc; cases k <;> decide)
      · cases h

theorem unread_colon {s s' : Scanner σ} (h : s.colon = (.ok (), s')) : s'.unread ≤ s.unread := by
  unfold colon at h
  split at h
  · cases h
  · rename_i hn
    split at h <;> cases h
    exact (nextSolid_took hn).le

theorem unread_emptySlot {s s' : Scanner σ} {b : Bool} (h : s.emptySlot = (.ok b, s')) :
    s'.unread ≤ s.unread := by
  unfold emptySlot at h
  split at h
  · cases h
  · rename_i hn
    split at h
    · cases h
    · split at h <;> cases h
      rename_i hb
      exact unread_stepBack (nextSolid_took hn) hb

theorem unread_nextKey {s s' : Scanner σ} {key : Option String} (h : s.nextKey = (.ok key, s')) :
    s'.unread < s.unread := by
  unfold nextKey at h
  split at h
  · cases h
  · rename_i c s1 hn
    have ht := nextSolid_took hn
    split at h
    · cases h
    · rename_i hc
      split at h
      · cases h
        exact ht.lt hc
      · split at h
        · split at h
          · cases h
          · rename_i hq
            cases h
            exact Nat.lt_of_le_of_lt (unread_quoted hq) (ht.lt hc)
        · split at h
          · cases h
          · split at h
            · cases h
            · rename_i hb
              split at h
              · cases h
              · rename_i hk
                split at h
                · cases h
                · rename_i hne
                  cases h
                  exact Nat.lt_of_lt_of_le (unread_bare hk hne) (unread_stepBack ht hb)

end Scanner

end LaxJson
