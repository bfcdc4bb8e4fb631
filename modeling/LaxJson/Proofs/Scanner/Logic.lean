import LaxJson.Proofs.Scanner.Operation
import LaxJson.Proofs.Scanner.Recursion
import Mathlib.Data.List.Forall2

/-!
# LaxJson.Proofs.Scanner.Logic

A logic for pairs of operations, over two sources that may differ. What its rules say of the single
steps and of sequences holds of every operation: one lemma for each operation follows its steps
(`Logic.hasNext` to `Logic.document`), and `Logic.perform` is about all that can be requested.

* `Logic`: operations that only take characters. A character is read where the scanner is `Ready`,
  which may ask that the end has not been read yet, and it is only put back right after it was read.
* `ValueLogic`: values as well. The two sides may come to different values and members, as long as
  these are related.
* `Logic.valueLogic`: the usual case, in which both sides come to the same value.
-/

namespace LaxJson

/-- The faults that an operation may find. A container is only begun at its opening bracket, and a
message of the caller's own is not found but given. -/
def Fault.found : Fault → Bool
  | .missingOpening _ => false
  | .reported _ => false
  | _ => true

namespace Scanner

open Operation

/-- `Holds R p q s` is what the logic says of `p`, run from `s`, and of its counterpart `q`. Answers
are related by `R`, and what follows an answer may count on that. -/
structure Logic (σ τ : Type) [CharSource σ] [CharSource τ] where
  Holds : ∀ {α β : Type}, (α → β → Prop) → Operation σ α → Operation τ β → Scanner σ → Prop
  Ready : Scanner σ → Prop
  ready : ∀ {s : Scanner σ}, s.atEnd = false → Ready s
  answer : ∀ {α β : Type} {R : α → β → Prop} {a : α} {b : β} {s : Scanner σ}, R a b →
    Holds R (answer a) (answer b) s
  fault : ∀ {α β : Type} {R : α → β → Prop} {s : Scanner σ} {f : Fault}, f.found = true →
    Holds R (fault f) (fault f) s
  andThen : ∀ {α β α' β' : Type} {Q : α → α' → Prop} {R : β → β' → Prop} {p : Operation σ α}
    {p' : Operation τ α'} {q : α → Operation σ β} {q' : α' → Operation τ β'} {s : Scanner σ},
    Holds Q p p' s →
    (∀ a a' s1, p s = (.ok a, s1) → Q a a' → Holds R (q a) (q' a') s1) →
    Holds R (p.andThen q) (p'.andThen q') s
  next : ∀ {s : Scanner σ}, Ready s → Holds Eq next next s
  stepBack : ∀ {c : Char} {s : Scanner σ}, Handed c s → Holds Eq stepBack stepBack s

namespace Logic

variable {σ τ : Type} [CharSource σ] [CharSource τ] (L : Logic σ τ) {s : Scanner σ}

/-- A sequence whose first answer is the same on both sides. -/
theorem andThen_eq {α β β' : Type} {R : β → β' → Prop} {p : Operation σ α} {p' : Operation τ α}
    {q : α → Operation σ β} {q' : α → Operation τ β'} (h : L.Holds Eq p p' s)
    (hrest : ∀ a s1, p s = (.ok a, s1) → L.Holds R (q a) (q' a) s1) :
    L.Holds R (p.andThen q) (p'.andThen q') s := by
  refine L.andThen h ?_
  rintro a _ s1 hp rfl
  exact hrest a s1 hp

/-- Where a character is put back, what comes next starts before the end. -/
theorem stepBack_andThen {β β' : Type} {R : β → β' → Prop} {c : Char}
    {q : Unit → Operation σ β} {q' : Unit → Operation τ β'} (h : Handed c s)
    (hrest : ∀ s1, s.stepBack = (.ok (), s1) → s1.atEnd = false → L.Holds R (q ()) (q' ()) s1) :
    L.Holds R (Operation.andThen Scanner.stepBack q) (Operation.andThen Scanner.stepBack q') s := by
  refine L.andThen_eq (L.stepBack h) ?_
  intro _ s1 hb
  exact hrest s1 hb (stepBack_open hb)

/-! ## Characters -/

theorem hasNext (hs : L.Ready s) : L.Holds Eq Scanner.hasNext Scanner.hasNext s := by
  rw [hasNext_steps, hasNext_steps]
  refine L.andThen_eq (L.next hs) ?_
  intro c s1 hn
  split
  · exact L.answer rfl
  · exact L.stepBack_andThen (next_handed hn) fun _ _ _ => L.answer rfl

theorem expect (hs : L.Ready s) (wanted : Char) :
    L.Holds Eq (fun s => s.expect wanted) (fun s => s.expect wanted) s := by
  rw [expect_steps, expect_steps]
  refine L.andThen_eq (L.next hs) ?_
  intro c s1 hn
  split
  · exact L.answer rfl
  · exact L.fault rfl

theorem takeFrom (hs : L.Ready s) (text : List Char) (n : Nat) :
    L.Holds Eq (fun s => s.takeFrom text n) (fun s => s.takeFrom text n) s := by
  induction n generalizing s text with
  | zero => exact L.answer rfl
  | succ n ih =>
    rw [takeFrom_steps, takeFrom_steps]
    refine L.andThen_eq (L.next hs) ?_
    intro c s1 hn
    split
    · exact L.fault rfl
    · rename_i hc
      exact ih (L.ready ((next_handed hn).open hc)) (c :: text)

theorem take (hs : L.Ready s) {n : Nat} (hn : n ≤ capacity) :
    L.Holds Eq (fun s => s.take n) (fun s => s.take n) s := by
  simp only [Scanner.take, if_neg (Nat.not_lt.mpr hn)]
  exact L.takeFrom hs [] n

theorem escape (hs : L.Ready s) : L.Holds Eq Scanner.escape Scanner.escape s := by
  rw [escape_steps, escape_steps]
  refine L.andThen_eq (L.next hs) ?_
  intro c s1 hn
  split
  · rename_i hc
    have hs1 : L.Ready s1 := L.ready ((next_handed hn).open (by rw [hc]; decide))
    refine L.andThen_eq (L.take hs1 (by decide)) ?_
    intro digits s2 _
    cases hexValue? 0 digits.toList with
    | some u => exact L.answer rfl
    | none => exact L.fault rfl
  · cases simpleEscape? c with
    | some d => exact L.answer rfl
    | none => exact L.fault rfl

variable [FiniteSource σ] [FiniteSource τ]

theorem nextSolid (hs : L.Ready s) : L.Holds Eq Scanner.nextSolid Scanner.nextSolid s := by
  induction hn : s.unread using Nat.strongRecOn generalizing s with
  | ind n ih =>
    subst hn
    rw [nextSolid_steps (σ := σ), nextSolid_steps (σ := τ)]
    refine L.andThen_eq (L.next hs) ?_
    intro c s1 hn
    split
    · exact L.answer rfl
    · rename_i hc
      have hmark : c ≠ endMark := fun h => hc (.inl h)
      exact ih _ ((next_took hn).lt hmark) (L.ready ((next_handed hn).open hmark)) rfl

/-! ## Strings and fields -/

theorem quotedFrom (quote : Char) (built : Utf16.Builder) (hs : L.Ready s) :
    L.Holds Eq (Scanner.quotedFrom quote built) (Scanner.quotedFrom quote built) s := by
  induction hn : s.unread using Nat.strongRecOn generalizing s built with
  | ind n ih =>
    subst hn
    rw [quotedFrom_steps, quotedFrom_steps]
    refine L.andThen_eq (L.next hs) ?_
    intro c s1 hn
    split
    · exact L.fault rfl
    rename_i hc
    have hs1 : L.Ready s1 := L.ready ((next_handed hn).open hc)
    have hlt : s1.unread < s.unread := (next_took hn).lt hc
    split
    · refine L.andThen_eq (L.escape hs1) ?_
      intro x s2 he
      have hle := unread_escape he
      exact ih _ (Nat.lt_of_le_of_lt hle hlt) _ (L.ready (escape_open he)) rfl
    split
    · exact L.answer rfl
    · exact ih _ hlt _ hs1 rfl

theorem quoted (hs : L.Ready s) (quote : Char) :
    L.Holds Eq (fun s => s.quoted quote) (fun s => s.quoted quote) s :=
  L.quotedFrom quote .empty hs

theorem fieldFrom (isDelimiter : Char → Bool) (text : List Char) (hs : L.Ready s) :
    L.Holds Eq (Scanner.fieldFrom isDelimiter text) (Scanner.fieldFrom isDelimiter text) s := by
  induction hn : s.unread using Nat.strongRecOn generalizing s text with
  | ind n ih =>
    subst hn
    rw [fieldFrom_steps, fieldFrom_steps]
    refine L.andThen_eq (L.next hs) ?_
    intro c s1 hn
    split
    · exact L.answer rfl
    rename_i hc
    split
    · exact L.stepBack_andThen (next_handed hn) fun _ _ _ => L.answer rfl
    · exact ih _ ((next_took hn).lt hc) _ (L.ready ((next_handed hn).open hc)) rfl

theorem bareFrom (text : List Char) (hs : L.Ready s) :
    L.Holds Eq (Scanner.bareFrom text) (Scanner.bareFrom text) s := by
  induction hn : s.unread using Nat.strongRecOn generalizing s text with
  | ind n ih =>
    subst hn
    rw [bareFrom_steps, bareFrom_steps]
    refine L.andThen_eq (L.next hs) ?_
    intro c s1 hn
    split
    · exact L.stepBack_andThen (next_handed hn) fun _ _ _ => L.answer rfl
    · rename_i hends
      have hc : c ≠ endMark := by
        rintro rfl
        exact hends rfl
      exact ih _ ((next_took hn).lt hc) _ (L.ready ((next_handed hn).open hc)) rfl

theorem bare (hs : L.Ready s) : L.Holds Eq Scanner.bare Scanner.bare s :=
  L.bareFrom [] hs

/-! ## Searching -/

/-- What a search does at the end and at its target is said apart: it uses the source's mark. -/
theorem seekFrom {target : Char} {origin : Cursor} (hs : L.Ready s)
    (hrewind : ∀ s1, L.Holds Eq (rewind origin) (rewind origin) s1)
    (hsettle : ∀ s1 c, Handed c s1 → L.Holds Eq (settle target) (settle target) s1) :
    L.Holds Eq (Scanner.seekFrom target origin) (Scanner.seekFrom target origin) s := by
  induction hn : s.unread using Nat.strongRecOn generalizing s with
  | ind n ih =>
    subst hn
    rw [seekFrom_steps (σ := σ), seekFrom_steps (σ := τ)]
    refine L.andThen_eq (L.next hs) ?_
    intro c s1 hn
    split
    · exact hrewind s1
    rename_i hc
    split
    · exact hsettle s1 c (next_handed hn)
    · exact ih _ ((next_took hn).lt hc) (L.ready ((next_handed hn).open hc)) rfl

/-! ## Punctuation -/

/-- A container is begun where its bracket has been put back, so that the bracket is not missing. -/
theorem opening (hs : L.Ready s) {k : Container} (hput : s.cursor.pending = some k.opening) :
    L.Holds Eq (fun s => s.opening k) (fun s => s.opening k) s := by
  rw [opening_steps, opening_steps]
  refine L.andThen_eq (L.nextSolid hs) ?_
  intro c s1 hn
  have hc : c = k.opening := nextSolid_pending hput k.opening_solid hn
  rw [if_pos hc, if_pos hc]
  exact L.answer rfl

theorem closes (hs : L.Ready s) (k : Container) :
    L.Holds Eq (fun s => s.closes k) (fun s => s.closes k) s := by
  rw [closes_steps, closes_steps]
  refine L.andThen_eq (L.nextSolid hs) ?_
  intro c s1 hn
  split
  · exact L.answer rfl
  · exact L.stepBack_andThen (nextSolid_handed hn) fun _ _ _ => L.answer rfl

theorem separator (hs : L.Ready s) (k : Container) :
    L.Holds Eq (fun s => s.separator k) (fun s => s.separator k) s := by
  rw [separator_steps, separator_steps]
  refine L.andThen_eq (L.nextSolid hs) ?_
  intro c s1 hn
  split
  · rename_i hc
    have hmark : c ≠ endMark := by
      rintro rfl
      cases k <;> simp [Container.separators, endMark] at hc
    exact L.closes (L.ready ((nextSolid_handed hn).open hmark)) k
  split
  · exact L.answer rfl
  · exact L.fault rfl

theorem nextKey (hs : L.Ready s) : L.Holds Eq Scanner.nextKey Scanner.nextKey s := by
  rw [nextKey_steps, nextKey_steps]
  refine L.andThen_eq (L.nextSolid hs) ?_
  intro c s1 hn
  split
  · exact L.fault rfl
  rename_i hc
  have hs1 : L.Ready s1 := L.ready ((nextSolid_handed hn).open hc)
  split
  · exact L.answer rfl
  split
  · exact L.andThen_eq (L.quoted hs1 c) fun _ _ _ => L.answer rfl
  split
  · exact L.fault rfl
  refine L.stepBack_andThen (nextSolid_handed hn) ?_
  intro s2 _ hopen
  refine L.andThen_eq (L.bare (L.ready hopen)) ?_
  intro key s3 _
  split
  · exact L.fault rfl
  · exact L.answer rfl

theorem colon (hs : L.Ready s) : L.Holds Eq Scanner.colon Scanner.colon s := by
  rw [colon_steps, colon_steps]
  refine L.andThen_eq (L.nextSolid hs) ?_
  intro c s1 hn
  split
  · exact L.answer rfl
  · exact L.fault rfl

theorem emptySlot (hs : L.Ready s) : L.Holds Eq Scanner.emptySlot Scanner.emptySlot s := by
  rw [emptySlot_steps, emptySlot_steps]
  refine L.andThen_eq (L.nextSolid hs) ?_
  intro c s1 hn
  split
  · exact L.fault rfl
  · exact L.stepBack_andThen (nextSolid_handed hn) fun _ _ _ => L.answer rfl

/-! ## Requests -/

omit [FiniteSource σ] [FiniteSource τ] in
theorem reply {α : Type} {p : Operation σ α} {p' : Operation τ α} (h : L.Holds Eq p p' s)
    (f : α → Reply) :
    L.Holds Eq (fun s => Scanner.reply f (p s)) (fun s => Scanner.reply f (p' s)) s := by
  rw [reply_steps, reply_steps]
  exact L.andThen_eq h fun _ _ _ => L.answer rfl

/-- A request is one of these operations. Putting back may come at any time, a search uses the mark
of the source, and asking for too much is not put together from steps, so that these are said apart;
so are values, which may differ. -/
theorem perform (hs : L.Ready s) (request : Request)
    (hback : request = .stepBack → L.Holds Eq Scanner.stepBack Scanner.stepBack s)
    (hvalue : L.Holds Eq Scanner.value Scanner.value s)
    (hseek : ∀ target, L.Holds Eq (fun s => s.seek target) (fun s => s.seek target) s)
    (htake : ∀ n, capacity < n → L.Holds Eq (fun s => s.take n) (fun s => s.take n) s) :
    L.Holds Eq (fun s => s.perform request) (fun s => s.perform request) s := by
  cases request with
  | next => exact L.reply (L.next hs) .char
  | stepBack => exact L.reply (hback rfl) fun _ => .done
  | hasNext => exact L.reply (L.hasNext hs) .flag
  | expect c => exact L.reply (L.expect hs c) .char
  | take n =>
    refine L.reply ?_ .text
    by_cases hn : n ≤ capacity
    · exact L.take hs hn
    · exact htake n (Nat.not_le.mp hn)
  | nextSolid => exact L.reply (L.nextSolid hs) .char
  | quoted quote => exact L.reply (L.quoted hs quote) .text
  | fieldTo delimiter => exact L.reply (L.fieldFrom _ [] hs) .text
  | fieldToAny delimiters => exact L.reply (L.fieldFrom _ [] hs) .text
  | value => exact L.reply hvalue .value
  | seek target => exact L.reply (hseek target) .char

end Logic

/-- A logic for the operations that read values. `Same` relates the values that the two sides come
to, `SameMembers` the members of an object that is not closed yet. -/
structure ValueLogic (σ τ : Type) [CharSource σ] [CharSource τ] extends Logic σ τ where
  Same : Value → Value → Prop
  SameMembers : Members Value → Members Value → Prop
  text : ∀ t : String, Same (.text t) (.text t)
  literal : ∀ t : String, Same (Literal.value t) (Literal.value t)
  null : Same .null .null
  array : ∀ {vs vs' : List Value}, List.Forall₂ Same vs vs' → Same (.array vs) (.array vs')
  object : ∀ {ms ms' : Members Value}, SameMembers ms ms' → Same (.object ms) (.object ms')
  noMembers : SameMembers [] []
  nested : ∀ {α β : Type} {R : α → β → Prop} {p : Operation σ α} {p' : Operation τ β}
    {s : Scanner σ} (k : Container), Holds R p p' s.enter → Holds R (nested k p) (nested k p') s
  adding : ∀ {α β : Type} {R : α → β → Prop} {ms ms' : Members Value} {key : String}
    {p : (Value → Members Value) → Operation σ α} {p' : (Value → Members Value) → Operation τ β}
    {s : Scanner σ}, SameMembers ms ms' →
    (∀ add add', (∀ v v', Same v v' → SameMembers (add v) (add' v')) →
      Holds R (p add) (p' add') s) →
    Holds R (adding ms key p) (adding ms' key p') s

namespace ValueLogic

variable {σ τ : Type} [CharSource σ] [CharSource τ] [FiniteSource σ] [FiniteSource τ]
  (L : ValueLogic σ τ) {s : Scanner σ}

theorem value_of_calls (hs : L.Ready s)
    (hobject : ∀ s1 : Scanner σ, s1.unread ≤ s.unread →
      s1.cursor.pending = some Container.object.opening →
      L.Holds L.Same Scanner.object Scanner.object s1)
    (harray : ∀ s1 : Scanner σ, s1.unread ≤ s.unread →
      s1.cursor.pending = some Container.array.opening →
      L.Holds L.Same Scanner.array Scanner.array s1) :
    L.Holds L.Same Scanner.value Scanner.value s := by
  rw [value_steps, value_steps]
  refine L.andThen_eq (L.nextSolid hs) ?_
  intro c s1 hn
  split
  · rename_i hquote
    have hs1 : L.Ready s1 := L.ready ((nextSolid_handed hn).open (quote_ne_endMark hquote))
    exact L.andThen_eq (L.quoted hs1 c) fun t _ _ => L.answer (L.text t)
  refine L.stepBack_andThen (nextSolid_handed hn) ?_
  intro s2 hb hopen
  have hle : s2.unread ≤ s.unread := unread_stepBack (nextSolid_took hn) hb
  have hput : s2.cursor.pending = some c := (nextSolid_handed hn).pending_stepBack hb
  split
  · rename_i hc
    exact hobject s2 hle (hc ▸ hput)
  split
  · rename_i hc
    exact harray s2 hle (hc ▸ hput)
  refine L.andThen_eq (L.bare (L.ready hopen)) ?_
  intro t s3 _
  split
  · exact L.fault rfl
  · exact L.answer (L.literal t)

theorem object_of_calls (hput : s.cursor.pending = some Container.object.opening)
    (hmembers : ∀ s1 : Scanner σ, s1.unread < s.unread → s1.atEnd = false →
      L.Holds L.SameMembers (Scanner.members []) (Scanner.members []) s1) :
    L.Holds L.Same Scanner.object Scanner.object s := by
  have hs1 : L.Ready s.enter := L.ready (open_of_pending hput)
  rw [object_steps, object_steps]
  refine L.nested .object (L.andThen_eq (L.opening hs1 hput) ?_)
  intro _ s1 ho
  have hlt : s1.unread < s.unread := unread_opening (s := s.enter) ho
  refine L.andThen (hmembers s1 hlt (opening_open ho)) ?_
  intro ms ms' s2 _ hms
  exact L.answer (L.object hms)

theorem array_of_calls (hput : s.cursor.pending = some Container.array.opening)
    (hitems : ∀ s1 : Scanner σ, s1.unread < s.unread → s1.atEnd = false →
      L.Holds (List.Forall₂ L.Same) (Scanner.items []) (Scanner.items []) s1) :
    L.Holds L.Same Scanner.array Scanner.array s := by
  have hs1 : L.Ready s.enter := L.ready (open_of_pending hput)
  rw [array_steps, array_steps]
  refine L.nested .array (L.andThen_eq (L.opening hs1 hput) ?_)
  intro _ s1 ho
  have hlt : s1.unread < s.unread := unread_opening (s := s.enter) ho
  refine L.andThen_eq (L.closes (L.ready (opening_open ho)) .array) ?_
  intro closed s2 hc
  split
  · exact L.answer (L.array .nil)
  have hlt2 : s2.unread < s.unread := Nat.lt_of_le_of_lt (unread_closes hc) hlt
  refine L.andThen (hitems s2 hlt2 (closes_handed hc).1) ?_
  intro vs vs' s3 _ hvs
  exact L.answer (L.array hvs)

theorem members_of_calls {ms ms' : Members Value} (hs : s.atEnd = false)
    (hms : L.SameMembers ms ms')
    (hvalue : ∀ s1 : Scanner σ, s1.unread < s.unread → s1.atEnd = false →
      L.Holds L.Same Scanner.value Scanner.value s1)
    (hmembers : ∀ ms1 ms1', ∀ s1 : Scanner σ, s1.unread < s.unread → s1.atEnd = false →
      L.SameMembers ms1 ms1' →
      L.Holds L.SameMembers (Scanner.members ms1) (Scanner.members ms1') s1) :
    L.Holds L.SameMembers (Scanner.members ms) (Scanner.members ms') s := by
  rw [members_steps, members_steps]
  refine L.andThen_eq (L.nextKey (L.ready hs)) ?_
  intro key s1 hk
  have hlt1 : s1.unread < s.unread := unread_nextKey hk
  cases key with
  | none => exact L.answer hms
  | some key =>
    refine L.andThen_eq (L.colon (L.ready (nextKey_handed hk).1)) ?_
    intro _ s2 hc
    have hlt2 : s2.unread < s.unread := Nat.lt_of_le_of_lt (unread_colon hc) hlt1
    refine L.adding hms ?_
    intro add add' hadd
    refine L.andThen (hvalue s2 hlt2 (colon_open hc)) ?_
    intro v v' s3 hv hsame
    have hlt3 : s3.unread < s2.unread := unread_value hv
    refine L.andThen_eq (L.separator (L.ready (value_open hv)) .object) ?_
    intro closed s4 hsep
    have hopen := (separator_handed hsep).1
    have hlt4 := unread_separator hsep
    split
    · exact L.answer (hadd v v' hsame)
    · exact hmembers _ _ s4 (by omega) hopen (hadd v v' hsame)

theorem afterSlot_of_calls {before before' : List Value} {v v' : Value} (hs : s.atEnd = false)
    (hbefore : List.Forall₂ L.Same before before') (hv : L.Same v v')
    (hitems : ∀ vs vs', ∀ s1 : Scanner σ, s1.unread < s.unread → s1.atEnd = false →
      List.Forall₂ L.Same vs vs' →
      L.Holds (List.Forall₂ L.Same) (Scanner.items vs) (Scanner.items vs') s1) :
    L.Holds (List.Forall₂ L.Same) (afterSlot before v) (afterSlot before' v') s := by
  refine L.andThen_eq (L.separator (L.ready hs) .array) ?_
  intro closed s1 hsep
  have hall : List.Forall₂ L.Same (v :: before) (v' :: before') := .cons hv hbefore
  split
  · exact L.answer (List.rel_reverse hall)
  · exact hitems _ _ s1 (unread_separator hsep) (separator_handed hsep).1 hall

theorem items_of_calls {before before' : List Value} (hs : s.atEnd = false)
    (hbefore : List.Forall₂ L.Same before before')
    (hvalue : ∀ s1 : Scanner σ, s1.unread ≤ s.unread → s1.atEnd = false →
      L.Holds L.Same Scanner.value Scanner.value s1)
    (hitems : ∀ vs vs', ∀ s1 : Scanner σ, s1.unread < s.unread → s1.atEnd = false →
      List.Forall₂ L.Same vs vs' →
      L.Holds (List.Forall₂ L.Same) (Scanner.items vs) (Scanner.items vs') s1) :
    L.Holds (List.Forall₂ L.Same) (Scanner.items before) (Scanner.items before') s := by
  rw [items_steps, items_steps]
  refine L.andThen_eq (L.emptySlot (L.ready hs)) ?_
  intro empty s1 he
  have hopen := emptySlot_open he
  have hle : s1.unread ≤ s.unread := unread_emptySlot he
  split
  · refine L.afterSlot_of_calls hopen hbefore L.null ?_
    intro vs vs' s2 hlt
    exact hitems vs vs' s2 (Nat.lt_of_lt_of_le hlt hle)
  · refine L.andThen (hvalue s1 hle hopen) ?_
    intro v v' s2 hv hsame
    have hlt2 : s2.unread < s1.unread := unread_value hv
    refine L.afterSlot_of_calls (value_open hv) hbefore hsame ?_
    intro vs vs' s3 hlt
    exact hitems vs vs' s3 (by omega)

/-- The five reading functions, by induction along their calls on the left. -/
theorem reading :
    Everywhere (fun s => L.Ready s → L.Holds L.Same Scanner.value Scanner.value s)
      (fun s => s.cursor.pending = some Container.object.opening →
        L.Holds L.Same Scanner.object Scanner.object s)
      (fun s => s.cursor.pending = some Container.array.opening →
        L.Holds L.Same Scanner.array Scanner.array s)
      (fun ms s => ∀ ms', s.atEnd = false → L.SameMembers ms ms' →
        L.Holds L.SameMembers (Scanner.members ms) (Scanner.members ms') s)
      (fun before s => ∀ before', s.atEnd = false → List.Forall₂ L.Same before before' →
        L.Holds (List.Forall₂ L.Same) (Scanner.items before) (Scanner.items before') s) := by
  apply reading_induction
  · intro s hobject harray hs
    exact L.value_of_calls hs hobject harray
  · intro s hmembers hput
    refine L.object_of_calls hput ?_
    intro s1 hlt hopen
    exact hmembers [] s1 hlt [] hopen L.noMembers
  · intro s hitems hput
    refine L.array_of_calls hput ?_
    intro s1 hlt hopen
    exact hitems [] s1 hlt [] hopen .nil
  · intro ms s hvalue hmembers ms' hs hms
    refine L.members_of_calls hs hms (fun s1 hlt hopen => hvalue s1 hlt (L.ready hopen)) ?_
    intro ms1 ms1' s1 hlt
    exact hmembers ms1 s1 hlt ms1'
  · intro before s hvalue hitems before' hs hbefore
    refine L.items_of_calls hs hbefore (fun s1 hle hopen => hvalue s1 hle (L.ready hopen)) ?_
    intro vs vs' s1 hlt
    exact hitems vs s1 hlt vs'

theorem value (hs : L.Ready s) : L.Holds L.Same Scanner.value Scanner.value s :=
  L.reading.value s hs

theorem document (hs : L.Ready s) : L.Holds L.Same Scanner.document Scanner.document s := by
  rw [document_steps, document_steps]
  refine L.andThen (L.value hs) ?_
  intro v v' s1 hv hsame
  refine L.andThen_eq (L.nextSolid (L.ready (value_open hv))) ?_
  intro c s2 _
  split
  · exact L.answer hsame
  · exact L.fault rfl

end ValueLogic

/-- A logic in which both sides come to the same value. -/
def Logic.valueLogic {σ τ : Type} [CharSource σ] [CharSource τ] (L : Logic σ τ)
    (nested : ∀ {α β : Type} {R : α → β → Prop} {p : Operation σ α} {p' : Operation τ β}
      {s : Scanner σ} (k : Container), L.Holds R p p' s.enter →
      L.Holds R (nested k p) (nested k p') s)
    (adding : ∀ {α β : Type} {R : α → β → Prop} {ms : Members Value} {key : String}
      {p : (Value → Members Value) → Operation σ α} {p' : (Value → Members Value) → Operation τ β}
      {s : Scanner σ}, (∀ add, L.Holds R (p add) (p' add) s) →
      L.Holds R (adding ms key p) (adding ms key p') s) : ValueLogic σ τ where
  toLogic := L
  Same := Eq
  SameMembers := Eq
  text _ := rfl
  literal _ := rfl
  null := rfl
  array h := congrArg Value.array (List.forall₂_eq_eq_eq ▸ h)
  object := congrArg Value.object
  noMembers := rfl
  nested := nested
  adding := by
    rintro α β R ms _ key p p' s rfl hrest
    exact adding fun add => hrest add add fun _ _ => congrArg add

end Scanner

end LaxJson
