import LaxJson.Literal
import LaxJson.Scanner.Punctuation

/-!
# LaxJson.Scanner.Nested

The recursion through values, objects and arrays. A value that is read has used something up
(`Progress`), and that is why the recursion ends, whatever the depth limit is.
-/

namespace LaxJson
namespace Scanner

variable {σ : Type} [CharSource σ]

/-- One container more, or less, is open. -/
def enter (s : Scanner σ) : Scanner σ := { s with depth := s.depth + 1 }

def leave (s : Scanner σ) : Scanner σ := { s with depth := s.depth - 1 }

/-- Whether no further container may be opened. -/
def full (s : Scanner σ) : Bool := s.options.maxDepth ≤ s.depth

/-- The members after one more, as the options have it. -/
def addMember (options : Options) (ms : Members Value) (key : String) (v : Value) :
    Members Value :=
  if options.dropNulls && v.isNull then ms else ms.put key v

theorem addMember_eq (options : Options) (ms : Members Value) (key : String) (v : Value) :
    addMember options ms key v =
      if options.dropNulls = true ∧ v = .null then ms else ms.put key v := by
  simp only [addMember, Bool.and_eq_true, Value.isNull_iff]

/-! ## Results that have used something up -/

/-- A result whose success has used something up. -/
structure Progress [FiniteSource σ] (s : Scanner σ) (α : Type) where
  result : Except Failure α × Scanner σ
  used : ∀ a, result.1 = .ok a → result.2.unread < s.unread

namespace Progress

variable [FiniteSource σ] {s : Scanner σ} {α : Type}

def error (e : Failure) (s' : Scanner σ) : Progress s α := ⟨(.error e, s'), nofun⟩

def fail (s' : Scanner σ) (fault : Fault) : Progress s α := ⟨s'.fail fault, nofun⟩

def ok (a : α) (s' : Scanner σ) (h : s'.unread < s.unread) : Progress s α :=
  ⟨(.ok a, s'), fun _ _ => h⟩

/-- Progress from a later point is progress. -/
def since {t : Scanner σ} (r : Progress t α) (h : t.unread ≤ s.unread) : Progress s α :=
  ⟨r.result, fun a ha => Nat.lt_of_lt_of_le (r.used a ha) h⟩

end Progress

mutual

def valueStep [FiniteSource σ] (s : Scanner σ) : Progress s Value :=
  match hn : s.nextSolid with
  | (.error e, s1) => .error e s1
  | (.ok c, s1) =>
    if hq : c = '"' ∨ c = '\'' then
      match ht : s1.quoted c with
      | (.error e, s2) => .error e s2
      | (.ok text, s2) =>
        .ok (.text text) s2
          (Nat.lt_of_le_of_lt (unread_quoted ht) ((nextSolid_took hn).lt (by
            rcases hq with rfl | rfl <;> decide)))
    else
      match hb : s1.stepBack with
      | (.error e, s2) => .error e s2
      | (.ok (), s2) =>
        have hle : s2.unread ≤ s.unread := unread_stepBack (nextSolid_took hn) hb
        if c = Container.object.opening then (objectStep s2).since hle
        else if c = Container.array.opening then (arrayStep s2).since hle
        else
          match ht : s2.bare with
          | (.error e, s3) => .error e s3
          | (.ok text, s3) =>
            if he : text = "" then .fail s3 .missingValue
            else .ok (Literal.value text) s3 (Nat.lt_of_lt_of_le (unread_bare ht he) hle)
termination_by 3 * s.unread + 1

def objectStep [FiniteSource σ] (s : Scanner σ) : Progress s Value :=
  if s.full then .fail s (.tooDeep .object)
  else
    match ho : s.enter.opening .object with
    | (.error e, s1) => .error e s1.leave
    | (.ok (), s1) =>
      have h1 : s1.unread < s.unread := unread_opening (s := s.enter) ho
      match membersStep [] s1 with
      | ⟨(.error e, s2), _⟩ => .error e s2.leave
      | ⟨(.ok ms, s2), h2⟩ => .ok (.object ms) s2.leave (Nat.lt_trans (h2 ms rfl) h1)
termination_by 3 * s.unread

def membersStep [FiniteSource σ] (ms : Members Value) (s : Scanner σ) :
    Progress s (Members Value) :=
  match hk : s.nextKey with
  | (.error e, s1) => .error e s1
  | (.ok none, s1) => .ok ms s1 (unread_nextKey hk)
  | (.ok (some key), s1) =>
    have h1 : s1.unread < s.unread := unread_nextKey hk
    match hc : s1.colon with
    | (.error e, s2) => .error e s2
    | (.ok (), s2) =>
      have h2 : s2.unread ≤ s1.unread := unread_colon hc
      if s2.options.uniqueKeys && ms.contains key then .fail s2 (.duplicateKey key)
      else
        match valueStep s2 with
        | ⟨(.error e, s3), _⟩ => .error e s3
        | ⟨(.ok v, s3), hv⟩ =>
          have h3 : s3.unread < s2.unread := hv v rfl
          match hs : s3.separator .object with
          | (.error e, s4) => .error e s4
          | (.ok true, s4) =>
            .ok (addMember s2.options ms key v) s4 (by have := unread_separator hs; omega)
          | (.ok false, s4) =>
            have h4 : s4.unread < s3.unread := unread_separator hs
            (membersStep (addMember s2.options ms key v) s4).since (by omega)
termination_by 3 * s.unread + 2

def arrayStep [FiniteSource σ] (s : Scanner σ) : Progress s Value :=
  if s.full then .fail s (.tooDeep .array)
  else
    match ho : s.enter.opening .array with
    | (.error e, s1) => .error e s1.leave
    | (.ok (), s1) =>
      have h1 : s1.unread < s.unread := unread_opening (s := s.enter) ho
      match hc : s1.closes .array with
      | (.error e, s2) => .error e s2.leave
      | (.ok true, s2) =>
        have h2 : s2.unread ≤ s1.unread := unread_closes hc
        .ok (.array []) s2.leave (Nat.lt_of_le_of_lt h2 h1)
      | (.ok false, s2) =>
        have h2 : s2.unread ≤ s1.unread := unread_closes hc
        match itemsStep [] s2 with
        | ⟨(.error e, s3), _⟩ => .error e s3.leave
        | ⟨(.ok items, s3), h3⟩ =>
          .ok (.array items) s3.leave
            (Nat.lt_of_lt_of_le (h3 items rfl) (Nat.le_of_lt (Nat.lt_of_le_of_lt h2 h1)))
termination_by 3 * s.unread

def itemsStep [FiniteSource σ] (items : List Value) (s : Scanner σ) : Progress s (List Value) :=
  match he : s.emptySlot with
  | (.error e, s1) => .error e s1
  | (.ok true, s1) =>
    have h1 : s1.unread ≤ s.unread := unread_emptySlot he
    match hs : s1.separator .array with
    | (.error e, s2) => .error e s2
    | (.ok true, s2) => .ok (.null :: items).reverse s2 (by have := unread_separator hs; omega)
    | (.ok false, s2) =>
      have h2 : s2.unread < s1.unread := unread_separator hs
      (itemsStep (.null :: items) s2).since (by omega)
  | (.ok false, s1) =>
    have h1 : s1.unread ≤ s.unread := unread_emptySlot he
    match valueStep s1 with
    | ⟨(.error e, s2), _⟩ => .error e s2
    | ⟨(.ok v, s2), hv⟩ =>
      have h2 : s2.unread < s1.unread := hv v rfl
      match hs : s2.separator .array with
      | (.error e, s3) => .error e s3
      | (.ok true, s3) => .ok (v :: items).reverse s3 (by have := unread_separator hs; omega)
      | (.ok false, s3) =>
        have h3 : s3.unread < s2.unread := unread_separator hs
        (itemsStep (v :: items) s3).since (by omega)
termination_by 3 * s.unread + 2

end

end Scanner

end LaxJson
