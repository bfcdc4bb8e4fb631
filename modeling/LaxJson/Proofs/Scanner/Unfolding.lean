import LaxJson.Proofs.Scanner.Operation
import LaxJson.Session

/-!
# LaxJson.Proofs.Scanner.Unfolding

The recursion taken apart. `Routines` are the ten operations that call themselves or each other, as
any operations at all, and `Routines.unfold` is one round of their bodies, with the calls left to the
routines at hand.

* `unfold_routines`: the operations of a scanner are what their bodies say, so that unfolding them
  changes nothing.
* `routines_perform`, `routines_document`: what is requested of a scanner is requested of these.
-/

namespace LaxJson
namespace Scanner

open Operation

/-- Operations in the place of those that are defined by recursion. -/
@[ext]
structure Routines (σ : Type) where
  nextSolid : Operation σ Char
  quotedFrom : Char → Utf16.Builder → Operation σ String
  fieldFrom : (Char → Bool) → List Char → Operation σ String
  bareFrom : List Char → Operation σ String
  seekFrom : Char → Cursor → Operation σ Char
  value : Operation σ Value
  object : Operation σ Value
  members : Members Value → Operation σ (Members Value)
  array : Operation σ Value
  items : List Value → Operation σ (List Value)

namespace Routines

variable {σ : Type} [CharSource σ] (r : Routines σ)

/-! ## What is put together from routines -/

def quoted (quote : Char) : Operation σ String := r.quotedFrom quote .empty

def bare : Operation σ String := r.bareFrom []

def opening (k : Container) : Operation σ Unit :=
  andThen r.nextSolid fun c => if c = k.opening then answer () else fault (.missingOpening k)

def closes (k : Container) : Operation σ Bool :=
  andThen r.nextSolid fun c =>
    if c = k.closing then answer true else andThen stepBack fun _ => answer false

def separator (k : Container) : Operation σ Bool :=
  andThen r.nextSolid fun c =>
    if c ∈ k.separators then r.closes k
    else if c = k.closing then answer true
    else fault (.missingSeparator k)

def nextKey : Operation σ (Option String) :=
  andThen r.nextSolid fun c =>
    if c = endMark then fault (.missingClosing .object)
    else if c = Container.object.closing then answer none
    else if c = '"' ∨ c = '\'' then andThen (r.quoted c) fun key => answer (some key)
    else if c = Container.object.opening ∨ c = Container.array.opening then fault .compositeKey
    else
      andThen stepBack fun _ => andThen r.bare fun key =>
        if key = "" then fault .missingValue else answer (some key)

def colon : Operation σ Unit :=
  andThen r.nextSolid fun c => if c = ':' then answer () else fault .missingColon

def emptySlot : Operation σ Bool :=
  andThen r.nextSolid fun c =>
    if c = endMark then fault (.missingClosing .array)
    else andThen stepBack fun _ => answer (decide (c = ','))

def afterKey (ms : Members Value) (key : String) : Operation σ (Members Value) :=
  andThen r.colon fun _ => adding ms key fun add =>
    andThen r.value fun v => andThen (r.separator .object) fun closed =>
      if closed then answer (add v) else r.members (add v)

def afterSlot (before : List Value) (v : Value) : Operation σ (List Value) :=
  andThen (r.separator .array) fun closed =>
    if closed then answer (v :: before).reverse else r.items (v :: before)

def document : Operation σ Value :=
  andThen r.value fun v => andThen r.nextSolid fun c =>
    if c = endMark then answer v else fault .trailingCharacters

def seek (target : Char) : Operation σ Char := fun s =>
  match CharSource.mark s.source seekLimit with
  | (.error e, source) => (.error (.source e), { s with source := source })
  | (.ok (), source) => r.seekFrom target s.cursor { s with source := source }

/-- A request, with the routines in place of the operations of the scanner. -/
def perform (s : Scanner σ) : Request → Except Failure Reply × Scanner σ
  | .next => reply .char s.next
  | .stepBack => reply (fun _ => .done) s.stepBack
  | .hasNext => reply .flag s.hasNext
  | .expect c => reply .char (s.expect c)
  | .take n => reply .text (s.take n)
  | .nextSolid => reply .char (r.nextSolid s)
  | .quoted quote => reply .text (r.quoted quote s)
  | .fieldTo delimiter => reply .text (r.fieldFrom (fun c => c = delimiter) [] s)
  | .fieldToAny delimiters => reply .text (r.fieldFrom (fun c => delimiters.toList.contains c) [] s)
  | .value => reply .value (r.value s)
  | .seek target => reply .char (r.seek target s)

/-- One round of each body; what it calls in turn is left to `r`. -/
def unfold : Routines σ where
  nextSolid :=
    andThen next fun c => if c = endMark ∨ isBlank c = false then answer c else r.nextSolid
  quotedFrom quote built :=
    andThen next fun c =>
      if c = endMark then fault .unterminatedString
      else if c = '\\' then andThen escape fun x => r.quotedFrom quote (built.pushEscaped x)
      else if c = quote then answer built.finish
      else r.quotedFrom quote (built.push c)
  fieldFrom isDelimiter text :=
    andThen next fun c =>
      if c = endMark then answer (String.ofList (trimBlanks text.reverse))
      else if c = '\n' ∨ c = '\r' ∨ isDelimiter c then
        andThen stepBack fun _ => answer (String.ofList (trimBlanks text.reverse))
      else r.fieldFrom isDelimiter (c :: text)
  bareFrom text :=
    andThen next fun c =>
      if endsBare c then andThen stepBack fun _ => answer (String.ofList (trimBlanks text.reverse))
      else r.bareFrom (c :: text)
  seekFrom target origin :=
    andThen next fun c =>
      if c = endMark then rewind origin
      else if c = target then settle target
      else r.seekFrom target origin
  value :=
    andThen r.nextSolid fun c =>
      if c = '"' ∨ c = '\'' then andThen (r.quoted c) fun text => answer (.text text)
      else
        andThen stepBack fun _ =>
          if c = Container.object.opening then r.object
          else if c = Container.array.opening then r.array
          else
            andThen r.bare fun text =>
              if text = "" then fault .missingValue else answer (Literal.value text)
  object :=
    nested .object (andThen (r.opening .object) fun _ =>
      andThen (r.members []) fun ms => answer (.object ms))
  members ms :=
    andThen r.nextKey fun
      | none => answer ms
      | some key => r.afterKey ms key
  array :=
    nested .array (andThen (r.opening .array) fun _ =>
      andThen (r.closes .array) fun closed =>
        if closed then answer (.array []) else andThen (r.items []) fun vs => answer (.array vs))
  items before :=
    andThen r.emptySlot fun empty =>
      if empty then r.afterSlot before .null else andThen r.value (r.afterSlot before)

end Routines

open Routines

variable (σ : Type) [CharSource σ] [FiniteSource σ]

/-- The operations of a scanner. -/
def routines : Routines σ where
  nextSolid := nextSolid
  quotedFrom := quotedFrom
  fieldFrom := fieldFrom
  bareFrom := bareFrom
  seekFrom := seekFrom
  value := value
  object := object
  members := members
  array := array
  items := items

variable {σ}

theorem routines_opening (k : Container) : (routines σ).opening k = fun s => s.opening k :=
  (opening_steps k).symm

theorem routines_closes (k : Container) : (routines σ).closes k = fun s => s.closes k :=
  (closes_steps k).symm

theorem routines_separator (k : Container) : (routines σ).separator k = fun s => s.separator k := by
  rw [separator_steps, Routines.separator, routines_closes]
  rfl

theorem routines_nextKey : (routines σ).nextKey = nextKey := nextKey_steps.symm

theorem routines_colon : (routines σ).colon = colon := colon_steps.symm

theorem routines_emptySlot : (routines σ).emptySlot = emptySlot := emptySlot_steps.symm

theorem routines_afterKey (ms : Members Value) (key : String) :
    (routines σ).afterKey ms key = afterKey ms key := by
  rw [Routines.afterKey, routines_colon, routines_separator]
  rfl

theorem routines_afterSlot (before : List Value) :
    (routines σ).afterSlot before = afterSlot before := by
  funext v
  rw [Routines.afterSlot, routines_separator]
  rfl

theorem routines_document : (routines σ).document = document := document_steps.symm

theorem routines_perform (s : Scanner σ) (request : Request) :
    (routines σ).perform s request = s.perform request := by
  cases request <;> rfl

/-- Unfolding the operations of a scanner changes nothing. -/
theorem unfold_routines : (routines σ).unfold = routines σ := by
  apply Routines.ext
  · exact nextSolid_steps.symm
  · funext quote built
    exact (quotedFrom_steps quote built).symm
  · funext isDelimiter text
    exact (fieldFrom_steps isDelimiter text).symm
  · funext text
    exact (bareFrom_steps text).symm
  · funext target origin
    exact (seekFrom_steps target origin).symm
  · exact value_steps.symm
  · simp only [Routines.unfold, routines_opening]
    exact object_steps.symm
  · funext ms
    simp only [Routines.unfold, routines_nextKey, routines_afterKey]
    exact (members_steps ms).symm
  · simp only [Routines.unfold, routines_opening, routines_closes]
    exact array_steps.symm
  · funext before
    simp only [Routines.unfold, routines_emptySlot, routines_afterSlot]
    exact (items_steps before).symm

end Scanner

end LaxJson
