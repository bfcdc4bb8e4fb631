import LaxJson.Proofs.Grammar.Soundness

/-!
# LaxJson.Proofs.Grammar.Completeness

What is there is read: where the characters ahead of a scanner spell a phrase of the grammar, the
scanner reads the phrase and what it means. `Complete` says so for each kind of phrase, and
`derives_complete` proves it by induction on the derivation. Repeated keys must be allowed, since
the grammar allows them.
-/

namespace LaxJson

namespace Grammar

variable {o : Options} {room : Nat} {w : List Char}

/-! ## How phrases begin -/

/-- No value begins with a blank, a comma or a closing bracket. -/
theorem Derives.value_head {v : Value} (h : Derives o room (.value v) w) :
    ∃ c w', w = c :: w' ∧ ' ' < c ∧ c ≠ ',' ∧ c ≠ ']' := by
  cases h with
  | quoted hq =>
    obtain ⟨c, w', rfl, hquote⟩ := hq.head
    refine ⟨c, w', rfl, ?_⟩
    rcases hquote with rfl | rfl <;> decide
  | literal hu =>
    obtain ⟨c, w', rfl, hsolid, -, hends⟩ := hu.head
    refine ⟨c, w', rfl, hsolid, ?_, ?_⟩ <;> rintro rfl <;> exact hends (by decide)
  | array => exact ⟨_, _, rfl, by decide⟩
  | emptyObject => exact ⟨_, _, rfl, by decide⟩
  | object => exact ⟨_, _, rfl, by decide⟩

theorem Derives.member_head {key : String} {v : Value} (h : Derives o room (.member key v) w) :
    ∃ c w', w = c :: w' ∧ ' ' < c ∧ c ≠ '\x7d' := by
  cases h with
  | member hk =>
    obtain ⟨c, w', rfl, hhead⟩ := hk.head
    simp only [List.append_assoc, List.cons_append]
    exact ⟨c, _, rfl, hhead⟩

/-- No members begin with a closing brace. -/
theorem Derives.members_head {ms : List (String × Value)} (h : Derives o room (.members ms) w)
    (tail : List Char) : (solid (w ++ tail)).headD endMark ≠ '\x7d' := by
  have hhead : ∃ c w', w = c :: w' ∧ ' ' < c ∧ c ≠ '\x7d' := by
    cases h with
    | lastMember h => exact h.member_head
    | separated h =>
      obtain ⟨c, w', rfl, hhead⟩ := h.member_head
      simp only [List.append_assoc, List.cons_append]
      exact ⟨c, _, rfl, hhead⟩
    | moreMembers h =>
      obtain ⟨c, w', rfl, hhead⟩ := h.member_head
      simp only [List.append_assoc, List.cons_append]
      exact ⟨c, _, rfl, hhead⟩
  obtain ⟨c, w', rfl, hsolid, hne⟩ := hhead
  rw [List.cons_append, solid_cons_of_not_blank (not_blank_iff.mpr hsolid)]
  exact hne

theorem Derives.eq_nil_of_emptySlot (h : Derives o room (.slot none) w) : w = [] := by
  cases h
  rfl

theorem Derives.eq_nil_of_emptySlots (h : Derives o room (.slots [none]) w) : w = [] := by
  cases h with
  | lastSlot h => exact h.eq_nil_of_emptySlot
  | moreSlots _ _ _ h => exact absurd rfl h.slots_ne_nil

/-- Slots that are more than an empty one do not begin with a closing bracket. -/
theorem Derives.slots_head {slots : List (Option Value)} (h : Derives o room (.slots slots) w)
    (hslots : slots ≠ [none]) (tail : List Char) : (solid (w ++ tail)).headD endMark ≠ ']' := by
  have hvalue : ∀ {v : Value} {w : List Char}, Derives o room (.value v) w → ∀ tail,
      (solid (w ++ tail)).headD endMark ≠ ']' := by
    intro v w h tail
    obtain ⟨c, w', rfl, hsolid, -, hne⟩ := h.value_head
    rw [List.cons_append, solid_cons_of_not_blank (not_blank_iff.mpr hsolid)]
    exact hne
  cases h with
  | lastSlot h =>
    cases h with
    | emptySlot => exact absurd rfl hslots
    | fullSlot h => exact hvalue h tail
  | moreSlots h hb =>
    simp only [List.append_assoc, List.cons_append]
    cases h with
    | emptySlot =>
      rw [List.nil_append, (hb.before_end (by decide) _).2, List.headD_cons]
      decide
    | fullSlot h => exact hvalue h _

end Grammar

namespace Scanner

open Grammar

variable {o : Options} {room d : Nat} {w r : List Char} {s s' : Scanner CharsSource}

/-! ## What is to be shown -/

def ValueComplete (o : Options) (room : Nat) (w : List Char) (v : Value) : Prop :=
  ∀ d s tail, o.maxDepth - d = room → Ends tail → Before o d (solid (w ++ tail)) s →
    ∃ s', s.value = (.ok v, s') ∧ Before o d (solid tail) s'

/-- The slot is read, and what follows it decides how the array goes on. -/
def SlotComplete (o : Options) (room : Nat) (w : List Char) (slot : Option Value) : Prop :=
  ∀ d s tail before, o.maxDepth - d = room → Ends tail →
    (slot = none → (solid tail).head? = some ',') → Before o d (solid (w ++ tail)) s →
    ∃ s1, Before o d (solid tail) s1 ∧
      (∀ s2, s1.separator .array = (.ok true, s2) →
        items before s = (.ok (slot.getD .null :: before).reverse, s2)) ∧
      ∀ s2, s1.separator .array = (.ok false, s2) →
        items before s = items (slot.getD .null :: before) s2

/-- The slots are read, unless there is nothing to read. -/
def SlotsComplete (o : Options) (room : Nat) (w : List Char) (slots : List (Option Value)) : Prop :=
  slots ≠ [none] → ∀ d s b tail before, o.maxDepth - d = room → Blanks b →
    Before o d (solid (w ++ (b ++ ']' :: tail))) s →
    ∃ s', items before s = (.ok (before.reverse ++ slotItems slots), s') ∧ At o d tail s'

/-- The member is read, and what follows it decides how the object goes on. -/
def MemberComplete (o : Options) (room : Nat) (w : List Char) (key : String) (v : Value) : Prop :=
  ∀ d s tail ms, o.maxDepth - d = room → Ends tail → Before o d (solid (w ++ tail)) s →
    ∃ s1, Before o d (solid tail) s1 ∧
      (∀ s2, s1.separator .object = (.ok true, s2) →
        members ms s = (.ok (addMember o ms key v), s2)) ∧
      ∀ s2, s1.separator .object = (.ok false, s2) →
        members ms s = members (addMember o ms key v) s2

def MembersComplete (o : Options) (room : Nat) (w : List Char) (more : List (String × Value)) :
    Prop :=
  ∀ d s b tail ms, o.maxDepth - d = room → Blanks b →
    Before o d (solid (w ++ (b ++ '\x7d' :: tail))) s →
    ∃ s', members ms s = (.ok (more.foldl (fun acc m => addMember o acc m.1 m.2) ms), s') ∧
      At o d tail s'

/-- Where the phrase is spelled by what is ahead, the scanner reads it. -/
def Complete (o : Options) (room : Nat) (w : List Char) : Phrase → Prop
  | .value v => ValueComplete o room w v
  | .slot slot => SlotComplete o room w slot
  | .slots slots => SlotsComplete o room w slots
  | .member key v => MemberComplete o room w key v
  | .members ms => MembersComplete o room w ms

/-! ## Values -/

theorem quoted_valueComplete {t : String} (hw : Quoted w t) :
    ValueComplete o room w (.text t) := by
  intro d s tail _ _ h
  obtain ⟨quote, w', rfl, hquote, hquoted⟩ := quoted_complete (o := o) (d := d) hw
  have hsolid : isBlank quote = false := by rcases hquote with rfl | rfl <;> decide
  rw [List.cons_append, solid_cons_of_not_blank hsolid] at h
  obtain ⟨s1, (hn : s.nextSolid = (.ok quote, s1)), hread⟩ := nextSolid_before h
  obtain ⟨s2, hs2, hat⟩ := hquoted hread.at
  refine ⟨s2, ?_, hat.before⟩
  rw [value_eq]
  simp only [hn, if_pos hquote, hs2]

theorem literal_valueComplete (hw : Unquoted w) :
    ValueComplete o room w (Literal.value (String.ofList w)) := by
  intro d s tail _ htail h
  obtain ⟨c, w', rfl, hsolid, hne, hends⟩ := hw.head
  rw [List.cons_append, solid_cons_of_not_blank (not_blank_iff.mpr hsolid)] at h
  obtain ⟨s1, (hn : s.nextSolid = (.ok c, s1)), hread⟩ := nextSolid_before h
  obtain ⟨s2, hs2, hat⟩ := stepBack_at hread
  obtain ⟨s3, hs3, hbefore⟩ := literal_complete hw htail hat
  have hquote : ¬(c = '"' ∨ c = '\'') := by
    rintro (rfl | rfl)
    · exact hends (by decide)
    · exact hne rfl
  have hopening : ∀ k : Container, c ≠ k.opening := by
    rintro k rfl
    cases k <;> exact hends (by decide)
  have hname : String.ofList (c :: w') ≠ "" := by simp
  refine ⟨s3, ?_, hbefore⟩
  rw [value_eq]
  simp only [hn, if_neg hquote, hs2, if_neg (hopening _), hs3, if_neg hname]

/-- The reading function for a container. -/
def container (k : Container) (s : Scanner CharsSource) :
    Except Failure Value × Scanner CharsSource :=
  match k with
  | .object => s.object
  | .array => s.array

/-- The way in to a container: there is room for it, and its bracket is read. -/
theorem value_opening {k : Container} (hroom : o.maxDepth - d = room + 1)
    (h : Before o d (solid (k.opening :: r)) s) :
    ∃ s1 s2 : Scanner CharsSource, s.value = s1.container k ∧ s1.full = false ∧
      s1.enter.opening k = (.ok (), s2) ∧ At o (d + 1) r s2 := by
  have hblank : isBlank k.opening = false := by cases k <;> decide
  rw [solid_cons_of_not_blank hblank] at h
  obtain ⟨s1, (hn : s.nextSolid = (.ok k.opening, s1)), hread⟩ := nextSolid_before h
  obtain ⟨s2, hs2, hat⟩ := stepBack_at hread
  have h2 := hat.before_of_solid h.solid_eq
  obtain ⟨s3, hs3, hat'⟩ := opening_complete h2.enter
  refine ⟨s2, s3, ?_, ?_, hs3, hat'⟩
  · rw [value_eq]
    cases k <;> simp [hn, hs2, container, Container.opening]
  · rw [h2.full, decide_eq_false_iff_not]
    omega

/-- Either the array is closed, there being nothing in it, or it is not. -/
theorem closes_slots {b tail : List Char} {slots : List (Option Value)}
    (hw : Derives o room (.slots slots) w) (hb : Blanks b)
    (h : Before o d (solid (w ++ (b ++ ']' :: tail))) s) :
    (slots = [none] ∧ ∃ s1, s.closes .array = (.ok true, s1) ∧ At o d tail s1) ∨
      slots ≠ [none] ∧ ∃ s1, s.closes .array = (.ok false, s1) ∧
        Before o d (solid (w ++ (b ++ ']' :: tail))) s1 := by
  by_cases hslots : slots = [none]
  · subst hslots
    rw [hw.eq_nil_of_emptySlots, List.nil_append, (hb.before_end (by decide) _).2] at h
    exact .inl ⟨rfl, closes_complete h⟩
  · exact .inr ⟨hslots, closes_complete_false h (hw.slots_head hslots _)⟩

theorem array_valueComplete {b b' : List Char} {slots : List (Option Value)} (hb : Blanks b)
    (hw : Derives o room (.slots slots) w) (hb' : Blanks b')
    (ih : SlotsComplete o room w slots) :
    ValueComplete o (room + 1) ('[' :: (b ++ w ++ b' ++ [']'])) (.array (slotItems slots)) := by
  intro d s tail hroom _ h
  simp only [List.cons_append, List.append_assoc, List.nil_append] at h
  obtain ⟨s1, s2, hs1, hfull, hs2, hat⟩ := value_opening (k := .array) hroom h
  have h2 := hat.before
  rw [hb.solid_append] at h2
  rw [hs1]
  show ∃ s', s1.array = _ ∧ _
  rw [array_eq]
  simp only [hfull, hs2]
  rcases closes_slots hw hb' h2 with ⟨rfl, s3, hs3, hat'⟩ | ⟨hslots, s3, hs3, h3⟩
  · exact ⟨s3.leave, by simp [hs3, slotItems], hat'.leave.before⟩
  · obtain ⟨s4, hs4, hat'⟩ := ih hslots (d + 1) s3 b' tail [] (by omega) hb' h3
    exact ⟨s4.leave, by simp [hs3, hs4], hat'.leave.before⟩

theorem emptyObject_valueComplete {b : List Char} (hb : Blanks b) :
    ValueComplete o (room + 1) ('\x7b' :: (b ++ ['\x7d'])) (.object []) := by
  intro d s tail hroom _ h
  simp only [List.cons_append, List.append_assoc, List.nil_append] at h
  obtain ⟨s1, s2, hs1, hfull, hs2, hat⟩ := value_opening (k := .object) hroom h
  have h2 := hat.before
  rw [(hb.before_end (by decide) _).2] at h2
  obtain ⟨s3, hs3, hat'⟩ := nextKey_closing h2
  have hms : members [] s2 = (.ok [], s3) := by
    rw [members_eq]
    simp only [hs3]
  refine ⟨s3.leave, ?_, hat'.leave.before⟩
  rw [hs1]
  show s1.object = _
  rw [object_eq]
  simp only [hfull, hs2, hms]
  rfl

theorem object_valueComplete {b b' : List Char} {ms : List (String × Value)} (hb : Blanks b)
    (hb' : Blanks b') (ih : MembersComplete o room w ms) :
    ValueComplete o (room + 1) ('\x7b' :: (b ++ w ++ b' ++ ['\x7d']))
      (.object (objectMembers o ms)) := by
  intro d s tail hroom _ h
  simp only [List.cons_append, List.append_assoc, List.nil_append] at h
  obtain ⟨s1, s2, hs1, hfull, hs2, hat⟩ := value_opening (k := .object) hroom h
  have h2 := hat.before
  rw [hb.solid_append] at h2
  obtain ⟨s3, hs3, hat'⟩ := ih (d + 1) s2 b' tail [] (by omega) hb' h2
  rw [foldl_addMember] at hs3
  refine ⟨s3.leave, ?_, hat'.leave.before⟩
  rw [hs1]
  show s1.object = _
  rw [object_eq]
  simp only [hfull, hs2, hs3]
  rfl

/-! ## Slots -/

theorem emptySlot_slotComplete : SlotComplete o room [] none := by
  intro d s tail before _ _ hcomma h
  rw [List.nil_append] at h
  obtain ⟨r, hr⟩ := List.head?_eq_some_iff.mp (hcomma rfl)
  rw [hr] at h ⊢
  obtain ⟨s1, hs1, h1⟩ := emptySlot_complete h
  rw [decide_eq_true rfl] at hs1
  refine ⟨s1, h1, ?_, ?_⟩ <;> intro s2 hs2 <;> rw [items_eq] <;> simp only [hs1, hs2] <;> rfl

theorem fullSlot_slotComplete {v : Value} (hw : Derives o room (.value v) w)
    (ih : ValueComplete o room w v) : SlotComplete o room w (some v) := by
  intro d s tail before hroom htail _ h
  obtain ⟨c, w', rfl, hsolid, hcomma, -⟩ := hw.value_head
  have hsolid' : solid (c :: w' ++ tail) = c :: (w' ++ tail) := by
    rw [List.cons_append, solid_cons_of_not_blank (not_blank_iff.mpr hsolid)]
  obtain ⟨s1, hs1, h1⟩ := emptySlot_complete (hsolid' ▸ h)
  rw [decide_eq_false hcomma] at hs1
  obtain ⟨s2, hs2, h2⟩ := ih d s1 tail hroom htail (hsolid'.symm ▸ h1)
  refine ⟨s2, h2, ?_, ?_⟩ <;> intro s3 hs3 <;> rw [items_eq] <;> simp only [hs1, hs2, hs3] <;> rfl

theorem lastSlot_slotsComplete {slot : Option Value} (ih : SlotComplete o room w slot) :
    SlotsComplete o room w [slot] := by
  intro hslots d s b tail before hroom hb h
  have hfull : slot ≠ none := by
    rintro rfl
    exact hslots rfl
  obtain ⟨v, rfl⟩ := Option.ne_none_iff_exists'.mp hfull
  obtain ⟨hends, hsolid⟩ := hb.before_end (c := ']') (by decide) tail
  obtain ⟨s1, h1, hclosed, -⟩ := ih d s _ before hroom hends nofun h
  rw [hsolid] at h1
  obtain ⟨s2, hs2, hat⟩ := separator_closing (k := .array) h1
  refine ⟨s2, ?_, hat⟩
  rw [hclosed s2 hs2]
  exact congrArg (fun l => (Except.ok l, s2)) List.reverse_cons

theorem moreSlots_slotsComplete {w' b b' : List Char} {slot : Option Value}
    {slots : List (Option Value)} (ih : SlotComplete o room w slot) (hb : Blanks b)
    (hb' : Blanks b') (hw' : Derives o room (.slots slots) w')
    (ih' : SlotsComplete o room w' slots) :
    SlotsComplete o room (w ++ b ++ ',' :: (b' ++ w')) (slot :: slots) := by
  intro _ d s b'' tail before hroom hb'' h
  simp only [List.append_assoc, List.cons_append] at h
  obtain ⟨hends, hsolid⟩ :=
    hb.before_end (c := ',') (by decide) (b' ++ (w' ++ (b'' ++ ']' :: tail)))
  obtain ⟨s1, h1, hclosed, hopen⟩ :=
    ih d s _ before hroom hends (fun _ => congrArg List.head? hsolid) h
  rw [hsolid] at h1
  obtain ⟨s2, hs2, h2⟩ := separator_eq_closes (k := .array) (by decide) h1
  rw [hb'.solid_append] at h2
  rw [slotItems_cons slot hw'.slots_ne_nil]
  rcases closes_slots hw' hb'' h2 with ⟨rfl, s3, hs3, hat⟩ | ⟨hslots, s3, hs3, h3⟩
  · refine ⟨s3, ?_, hat⟩
    rw [hclosed s3 (hs2.trans hs3)]
    exact congrArg (fun l => (Except.ok l, s3)) List.reverse_cons
  · obtain ⟨s4, hs4, hat⟩ := ih' hslots d s3 b'' tail (slot.getD .null :: before) hroom hb'' h3
    refine ⟨s4, ?_, hat⟩
    rw [hopen s3 (hs2.trans hs3), hs4, List.reverse_cons, List.append_assoc]
    rfl

/-! ## Members -/

theorem member_memberComplete (ho : o.uniqueKeys = false) {k b b' : List Char} {key : String}
    {v : Value} (hk : Key k key) (hb : Blanks b) (hb' : Blanks b')
    (ih : ValueComplete o room w v) :
    MemberComplete o room (k ++ b ++ ':' :: (b' ++ w)) key v := by
  intro d s tail ms hroom htail h
  simp only [List.append_assoc, List.cons_append] at h
  have hsolid : solid (k ++ (b ++ ':' :: (b' ++ (w ++ tail)))) =
      k ++ (b ++ ':' :: (b' ++ (w ++ tail))) := by
    obtain ⟨c, k', rfl, hsolid, -⟩ := hk.head
    exact solid_cons_of_not_blank (not_blank_iff.mpr hsolid) _
  rw [hsolid] at h
  obtain ⟨hends, hcolon⟩ := hb.before_end (c := ':') (by decide) (b' ++ (w ++ tail))
  obtain ⟨s1, hs1, h1⟩ := nextKey_complete hk hends h
  rw [hcolon] at h1
  obtain ⟨s2, hs2, hat⟩ := colon_complete h1
  have h2 := hat.before
  rw [hb'.solid_append] at h2
  obtain ⟨s3, hs3, h3⟩ := ih d s2 tail hroom htail h2
  refine ⟨s3, h3, ?_, ?_⟩ <;> intro s4 hs4 <;> rw [members_eq] <;>
    simp only [hs1, hs2, hs3, hs4, hat.options, ho] <;> rfl

theorem lastMember_membersComplete {key : String} {v : Value}
    (ih : MemberComplete o room w key v) : MembersComplete o room w [(key, v)] := by
  intro d s b tail ms hroom hb h
  obtain ⟨hends, hsolid⟩ := hb.before_end (c := '\x7d') (by decide) tail
  obtain ⟨s1, h1, hclosed, -⟩ := ih d s _ ms hroom hends h
  rw [hsolid] at h1
  obtain ⟨s2, hs2, hat⟩ := separator_closing (k := .object) h1
  exact ⟨s2, hclosed s2 hs2, hat⟩

/-- A member and the separator after it. -/
theorem member_separator {b r : List Char} {key : String} {v : Value} {separator : Char}
    (ms : Members Value) (ih : MemberComplete o room w key v) (hb : Blanks b)
    (hseparator : separator = ',' ∨ separator = ';') (hroom : o.maxDepth - d = room)
    (h : Before o d (solid (w ++ (b ++ separator :: r))) s) :
    ∃ s1, Before o d (solid r) s1 ∧
      (∀ s2, s1.closes .object = (.ok true, s2) →
        members ms s = (.ok (addMember o ms key v), s2)) ∧
      ∀ s2, s1.closes .object = (.ok false, s2) →
        members ms s = members (addMember o ms key v) s2 := by
  have hend : separator ∈ literalEnds := by rcases hseparator with rfl | rfl <;> decide
  have hmem : separator ∈ Container.object.separators := by
    rcases hseparator with rfl | rfl <;> decide
  obtain ⟨hends, hsolid⟩ := hb.before_end hend r
  obtain ⟨s1, h1, hclosed, hopen⟩ := ih d s _ ms hroom hends h
  rw [hsolid] at h1
  obtain ⟨s2, hs2, h2⟩ := separator_eq_closes hmem h1
  refine ⟨s2, h2, ?_, ?_⟩
  · intro s3 hs3
    exact hclosed s3 (hs2.trans hs3)
  · intro s3 hs3
    exact hopen s3 (hs2.trans hs3)

theorem separated_membersComplete {b : List Char} {key : String} {v : Value} {separator : Char}
    (ih : MemberComplete o room w key v) (hb : Blanks b)
    (hseparator : separator = ',' ∨ separator = ';') :
    MembersComplete o room (w ++ b ++ [separator]) [(key, v)] := by
  intro d s b' tail ms hroom hb' h
  simp only [List.append_assoc, List.cons_append, List.nil_append] at h
  obtain ⟨s1, h1, hclosed, -⟩ := member_separator ms ih hb hseparator hroom h
  rw [(hb'.before_end (by decide) _).2] at h1
  obtain ⟨s2, hs2, hat⟩ := closes_complete (k := .object) h1
  exact ⟨s2, hclosed s2 hs2, hat⟩

theorem moreMembers_membersComplete {w' b b' : List Char} {key : String} {v : Value}
    {more : List (String × Value)} {separator : Char} (ih : MemberComplete o room w key v)
    (hb : Blanks b) (hseparator : separator = ',' ∨ separator = ';') (hb' : Blanks b')
    (hw' : Derives o room (.members more) w') (ih' : MembersComplete o room w' more) :
    MembersComplete o room (w ++ b ++ separator :: (b' ++ w')) ((key, v) :: more) := by
  intro d s b'' tail ms hroom hb'' h
  simp only [List.append_assoc, List.cons_append] at h
  obtain ⟨s1, h1, -, hopen⟩ := member_separator ms ih hb hseparator hroom h
  rw [hb'.solid_append] at h1
  obtain ⟨s2, hs2, h2⟩ := closes_complete_false (k := .object) h1 (hw'.members_head _)
  obtain ⟨s3, hs3, hat⟩ := ih' d s2 b'' tail (addMember o ms key v) hroom hb'' h2
  exact ⟨s3, (hopen s2 hs2).trans hs3, hat⟩

/-! ## Documents -/

theorem derives_complete (ho : o.uniqueKeys = false) {phrase : Phrase}
    (h : Derives o room phrase w) : Complete o room w phrase := by
  induction h with
  | quoted hw => exact quoted_valueComplete hw
  | literal hw => exact literal_valueComplete hw
  | array hb hw hb' ih => exact array_valueComplete hb hw hb' ih
  | emptyObject hb => exact emptyObject_valueComplete hb
  | object hb _ hb' ih => exact object_valueComplete hb hb' ih
  | emptySlot => exact emptySlot_slotComplete
  | fullSlot hw ih => exact fullSlot_slotComplete hw ih
  | lastSlot _ ih => exact lastSlot_slotsComplete ih
  | moreSlots _ hb hb' hw' ih ih' => exact moreSlots_slotsComplete ih hb hb' hw' ih'
  | member hk hb hb' _ ih => exact member_memberComplete ho hk hb hb' ih
  | lastMember _ ih => exact lastMember_membersComplete ih
  | separated _ hb hseparator ih => exact separated_membersComplete ih hb hseparator
  | moreMembers _ hb hseparator hb' hw' ih ih' =>
    exact moreMembers_membersComplete ih hb hseparator hb' hw' ih'

/-- A document is read as what it means. -/
theorem document_complete (ho : o.uniqueKeys = false) {v : Value} (hr : Document o r v)
    (h : At o 0 r s) : s.document.1 = .ok v := by
  obtain ⟨b, w, b', rfl, hb, hw, hb'⟩ := hr
  have hnil : solid b' = [] := List.dropWhile_eq_nil_iff.mpr hb'.blank
  have hends : Ends b' := by
    rw [Ends, hnil]
    rintro _ ⟨⟩
  have h0 := h.before
  rw [List.append_assoc, hb.solid_append] at h0
  obtain ⟨s1, hs1, h1⟩ := derives_complete ho hw 0 s b' (Nat.sub_zero _) hends h0
  obtain ⟨s2, hs2, -⟩ := nextSolid_before h1
  rw [hnil] at hs2
  simp only [document, hs1, hs2, List.headD_nil, if_true]

end Scanner

end LaxJson
