import LaxJson.Proofs.Scanner.Handed
import LaxJson.Session
import Mathlib.Logic.Basic

/-!
# LaxJson.Proofs.Scanner.Operation

The operations of a scanner as steps one after the other. `andThen` runs one operation after
another, `nested` runs one inside a further container, and `adding` goes on with a member unless its
key is refused. With these every operation is put together from reading a character, putting it
back, answering and failing: `hasNext_steps` to `document_steps` say how.

No step asks whether the end has been reached: that shows in the character read before
(`Handed.atEnd`).
-/

namespace LaxJson
namespace Scanner

/-- What an operation does: a result, and the scanner after it. -/
abbrev Operation (σ α : Type) := Scanner σ → Except Failure α × Scanner σ

namespace Operation

variable {σ α β : Type}

def answer (a : α) : Operation σ α := fun s => (.ok a, s)

def fault (f : Fault) : Operation σ α := fun s => s.fail f

/-- One operation and, if it succeeds, another one that depends on its answer. -/
def andThen (p : Operation σ α) (q : α → Operation σ β) : Operation σ β := fun s =>
  match p s with
  | (.error e, s1) => (.error e, s1)
  | (.ok a, s1) => q a s1

/-- An operation inside a further container, if that may be opened. -/
def nested (k : Container) (p : Operation σ α) : Operation σ α := fun s =>
  if s.full then s.fail (.tooDeep k) else ((p s.enter).1, (p s.enter).2.leave)

/-- An operation that may add a value under `key` to `ms`, unless the key is refused. -/
def adding (ms : Members Value) (key : String) (p : (Value → Members Value) → Operation σ α) :
    Operation σ α := fun s =>
  if s.options.uniqueKeys && ms.contains key then s.fail (.duplicateKey key)
  else p (addMember s.options ms key) s

theorem andThen_error {p : Operation σ α} {q : α → Operation σ β} {s s1 : Scanner σ} {e : Failure}
    (h : p s = (.error e, s1)) : p.andThen q s = (.error e, s1) := by
  simp only [andThen, h]

theorem andThen_ok {p : Operation σ α} {q : α → Operation σ β} {s s1 : Scanner σ} {a : α}
    (h : p s = (.ok a, s1)) : p.andThen q s = q a s1 := by
  simp only [andThen, h]

end Operation

open Operation

variable {σ : Type}

theorem reply_steps {α : Type} (f : α → Reply) (p : Operation σ α) :
    (fun s => reply f (p s)) = andThen p fun a => answer (f a) := by
  funext s
  rw [andThen]
  rcases p s with ⟨_ | a, s1⟩ <;> rfl

variable [CharSource σ]

/-! ## Characters -/

theorem hasNext_steps : (hasNext : Operation σ Bool) =
    andThen next fun c =>
      if c = endMark then answer false else andThen stepBack fun _ => answer true := by
  funext s
  simp only [hasNext, andThen, ite_apply, answer]
  rcases hn : s.next with ⟨_ | c, s1⟩
  · rfl
  · simp only [(next_handed hn).atEnd, decide_eq_true_eq]
    rcases s1.stepBack with ⟨_ | _, s2⟩ <;> rfl

theorem expect_steps (wanted : Char) : (fun s : Scanner σ => s.expect wanted) =
    andThen next fun c => if c = wanted then answer c else fault (.unexpected wanted c) := by
  funext s
  simp only [expect, andThen, ite_apply]
  rcases s.next with ⟨_ | c, s1⟩ <;> rfl

theorem takeFrom_steps (text : List Char) (n : Nat) :
    (fun s : Scanner σ => s.takeFrom text (n + 1)) =
      andThen next fun c =>
        if c = endMark then fault .textTooShort else fun s => s.takeFrom (c :: text) n := by
  funext s
  simp only [takeFrom, andThen, ite_apply, fault]
  rcases hn : s.next with ⟨_ | c, s1⟩
  · rfl
  · simp only [(next_handed hn).atEnd, decide_eq_true_eq]

theorem escape_steps : (escape : Operation σ Escaped) =
    andThen next fun c =>
      if c = 'u' then
        andThen (fun s => s.take 4) fun digits =>
          match hexValue? 0 digits.toList with
          | some u => answer (.unit u)
          | none => fault .illegalEscape
      else
        match simpleEscape? c with
        | some d => answer (.char d)
        | none => fault .illegalEscape := by
  funext s
  simp only [escape, andThen, ite_apply]
  rcases s.next with ⟨_ | c, s1⟩
  · rfl
  dsimp only
  congr 1
  · rcases s1.take 4 with ⟨_ | digits, s2⟩
    · rfl
    · dsimp only
      cases hexValue? 0 digits.toList <;> rfl
  · cases simpleEscape? c <;> rfl

variable [FiniteSource σ]

theorem nextSolid_steps : (nextSolid : Operation σ Char) =
    andThen next fun c => if c = endMark ∨ isBlank c = false then answer c else nextSolid := by
  funext s
  rw [nextSolid_eq]
  simp only [andThen, ite_apply]
  rcases s.next with ⟨_ | c, s1⟩ <;> rfl

/-! ## Strings and fields -/

theorem quotedFrom_steps (quote : Char) (built : Utf16.Builder) :
    (quotedFrom quote built : Operation σ String) =
      andThen next fun c =>
        if c = endMark then fault .unterminatedString
        else if c = '\\' then andThen escape fun x => quotedFrom quote (built.pushEscaped x)
        else if c = quote then answer built.finish
        else quotedFrom quote (built.push c) := by
  funext s
  rw [quotedFrom_eq]
  simp only [andThen, ite_apply]
  rcases s.next with ⟨_ | c, s1⟩
  · rfl
  · dsimp only
    rcases s1.escape with ⟨_ | x, s2⟩ <;> rfl

theorem fieldFrom_steps (isDelimiter : Char → Bool) (text : List Char) :
    (fieldFrom isDelimiter text : Operation σ String) =
      andThen next fun c =>
        if c = endMark then answer (String.ofList (trimBlanks text.reverse))
        else if c = '\n' ∨ c = '\r' ∨ isDelimiter c then
          andThen stepBack fun _ => answer (String.ofList (trimBlanks text.reverse))
        else fieldFrom isDelimiter (c :: text) := by
  funext s
  rw [fieldFrom_eq]
  simp only [andThen, ite_apply, answer]
  rcases s.next with ⟨_ | c, s1⟩
  · rfl
  · dsimp only
    rcases s1.stepBack with ⟨_ | _, s2⟩ <;> rfl

theorem bareFrom_steps (text : List Char) : (bareFrom text : Operation σ String) =
    andThen next fun c =>
      if endsBare c then andThen stepBack fun _ => answer (String.ofList (trimBlanks text.reverse))
      else bareFrom (c :: text) := by
  funext s
  rw [bareFrom_eq]
  simp only [andThen, ite_apply, answer]
  rcases s.next with ⟨_ | c, s1⟩
  · rfl
  · dsimp only
    rcases s1.stepBack with ⟨_ | _, s2⟩ <;> rfl

/-! ## Searching -/

/-- A search that comes to the end goes back to where it began. -/
def rewind (origin : Cursor) : Operation σ Char := fun s =>
  match CharSource.reset s.source with
  | (.error e, source) => (.error (.source e), { s with source := source })
  | (.ok (), source) =>
    (.ok endMark, { s with source := CharSource.unmark source, cursor := origin })

/-- A search that comes to its target puts it back. -/
def settle (target : Char) : Operation σ Char := fun s =>
  andThen stepBack (fun _ => answer target) { s with source := CharSource.unmark s.source }

theorem seekFrom_steps (target : Char) (origin : Cursor) :
    (seekFrom target origin : Operation σ Char) =
      andThen next fun c =>
        if c = endMark then rewind origin
        else if c = target then settle target
        else seekFrom target origin := by
  funext s
  rw [seekFrom_eq]
  simp only [andThen, ite_apply, settle, answer]
  rcases s.next with ⟨_ | c, s1⟩
  · rfl
  · dsimp only [rewind]
    rcases Scanner.stepBack { s1 with source := CharSource.unmark s1.source } with ⟨_ | _, s2⟩ <;> rfl

/-! ## Punctuation -/

theorem opening_steps (k : Container) : (fun s : Scanner σ => s.opening k) =
    andThen nextSolid fun c => if c = k.opening then answer () else fault (.missingOpening k) := by
  funext s
  simp only [opening, andThen, ite_apply]
  rcases s.nextSolid with ⟨_ | c, s1⟩ <;> rfl

theorem closes_steps (k : Container) : (fun s : Scanner σ => s.closes k) =
    andThen nextSolid fun c =>
      if c = k.closing then answer true else andThen stepBack fun _ => answer false := by
  funext s
  simp only [closes, andThen, ite_apply, answer]
  rcases s.nextSolid with ⟨_ | c, s1⟩
  · rfl
  · dsimp only
    rcases s1.stepBack with ⟨_ | _, s2⟩ <;> rfl

theorem separator_steps (k : Container) : (fun s : Scanner σ => s.separator k) =
    andThen nextSolid fun c =>
      if c ∈ k.separators then fun s => s.closes k
      else if c = k.closing then answer true
      else fault (.missingSeparator k) := by
  funext s
  simp only [separator, andThen, ite_apply]
  rcases s.nextSolid with ⟨_ | c, s1⟩ <;> rfl

theorem nextKey_steps : (nextKey : Operation σ (Option String)) =
    andThen nextSolid fun c =>
      if c = endMark then fault (.missingClosing .object)
      else if c = Container.object.closing then answer none
      else if c = '"' ∨ c = '\'' then andThen (fun s => s.quoted c) fun key => answer (some key)
      else if c = Container.object.opening ∨ c = Container.array.opening then fault .compositeKey
      else
        andThen stepBack fun _ => andThen bare fun key =>
          if key = "" then fault .missingValue else answer (some key) := by
  funext s
  simp only [nextKey, andThen, ite_apply, answer, fault]
  rcases s.nextSolid with ⟨_ | c, s1⟩
  · rfl
  dsimp only
  congr 3
  · rcases s1.quoted c with ⟨_ | key, s2⟩ <;> rfl
  · rcases s1.stepBack with ⟨_ | _, s2⟩
    · rfl
    · dsimp only
      rcases s2.bare with ⟨_ | key, s3⟩ <;> rfl

theorem colon_steps : (colon : Operation σ Unit) =
    andThen nextSolid fun c => if c = ':' then answer () else fault .missingColon := by
  funext s
  simp only [colon, andThen, ite_apply]
  rcases s.nextSolid with ⟨_ | c, s1⟩ <;> rfl

theorem emptySlot_steps : (emptySlot : Operation σ Bool) =
    andThen nextSolid fun c =>
      if c = endMark then fault (.missingClosing .array)
      else andThen stepBack fun _ => answer (decide (c = ',')) := by
  funext s
  simp only [emptySlot, andThen, ite_apply, answer, fault]
  rcases s.nextSolid with ⟨_ | c, s1⟩
  · rfl
  · dsimp only
    rcases s1.stepBack with ⟨_ | _, s2⟩ <;> rfl

/-! ## Values -/

theorem value_steps : (value : Operation σ Value) =
    andThen nextSolid fun c =>
      if c = '"' ∨ c = '\'' then andThen (fun s => s.quoted c) fun text => answer (.text text)
      else
        andThen stepBack fun _ =>
          if c = Container.object.opening then object
          else if c = Container.array.opening then array
          else
            andThen bare fun text =>
              if text = "" then fault .missingValue else answer (Literal.value text) := by
  funext s
  rw [value_eq]
  simp only [andThen, ite_apply, answer, fault]
  rcases s.nextSolid with ⟨_ | c, s1⟩
  · rfl
  dsimp only
  congr 1
  · rcases s1.quoted c with ⟨_ | text, s2⟩ <;> rfl
  · rcases s1.stepBack with ⟨_ | _, s2⟩
    · rfl
    · dsimp only
      rcases s2.bare with ⟨_ | text, s3⟩ <;> rfl

theorem object_steps : (object : Operation σ Value) =
    nested .object (andThen (fun s => s.opening .object) fun _ =>
      andThen (members []) fun ms => answer (.object ms)) := by
  funext s
  rw [object_eq]
  simp only [nested, andThen, answer]
  rcases s.enter.opening .object with ⟨_ | _, s1⟩
  · rfl
  · dsimp only
    rcases members [] s1 with ⟨_ | ms, s2⟩ <;> rfl

/-- Goes on after the key of a member. -/
def afterKey (ms : Members Value) (key : String) : Operation σ (Members Value) :=
  andThen colon fun _ => adding ms key fun add =>
    andThen value fun v => andThen (fun s => s.separator .object) fun closed =>
      if closed then answer (add v) else members (add v)

theorem members_steps (ms : Members Value) : (members ms : Operation σ (Members Value)) =
    andThen nextKey fun
      | none => answer ms
      | some key => afterKey ms key := by
  funext s
  rw [members_eq, andThen]
  rcases s.nextKey with ⟨_ | _ | key, s1⟩
  · rfl
  · rfl
  simp only [afterKey, andThen, adding, ite_apply, answer]
  rcases s1.colon with ⟨_ | _, s2⟩
  · rfl
  dsimp only
  rcases s2.value with ⟨_ | v, s3⟩
  · rfl
  dsimp only
  rcases s3.separator .object with ⟨_ | _ | _, s4⟩ <;> rfl

theorem array_steps : (array : Operation σ Value) =
    nested .array (andThen (fun s => s.opening .array) fun _ =>
      andThen (fun s => s.closes .array) fun closed =>
        if closed then answer (.array []) else andThen (items []) fun vs => answer (.array vs)) := by
  funext s
  rw [array_eq]
  simp only [nested, andThen, ite_apply, answer]
  rcases s.enter.opening .array with ⟨_ | _, s1⟩
  · rfl
  dsimp only
  rcases s1.closes .array with ⟨_ | _ | _, s2⟩
  · rfl
  · dsimp only
    rcases items [] s2 with ⟨_ | vs, s3⟩ <;> rfl
  · rfl

/-- Goes on after the value of a slot. -/
def afterSlot (before : List Value) (v : Value) : Operation σ (List Value) :=
  andThen (fun s => s.separator .array) fun closed =>
    if closed then answer (v :: before).reverse else items (v :: before)

theorem items_steps (before : List Value) : (items before : Operation σ (List Value)) =
    andThen emptySlot fun empty =>
      if empty then afterSlot before .null else andThen value (afterSlot before) := by
  funext s
  rw [items_eq]
  simp only [afterSlot, andThen, ite_apply, answer]
  rcases s.emptySlot with ⟨_ | _ | _, s1⟩
  · rfl
  · dsimp only
    rcases s1.value with ⟨_ | v, s2⟩
    · rfl
    · dsimp only
      rcases s2.separator .array with ⟨_ | _ | _, s3⟩ <;> rfl
  · dsimp only
    rcases s1.separator .array with ⟨_ | _ | _, s2⟩ <;> rfl

theorem document_steps : (document : Operation σ Value) =
    andThen value fun v => andThen nextSolid fun c =>
      if c = endMark then answer v else fault .trailingCharacters := by
  funext s
  simp only [document, andThen, ite_apply]
  rcases s.value with ⟨_ | v, s1⟩
  · rfl
  · dsimp only
    rcases s1.nextSolid with ⟨_ | c, s2⟩ <;> rfl

end Scanner

end LaxJson
