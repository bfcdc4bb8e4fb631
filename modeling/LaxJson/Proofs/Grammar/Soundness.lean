import LaxJson.Proofs.Scanner.Punctuation
import LaxJson.Proofs.Scanner.Recursion

/-!
# LaxJson.Proofs.Grammar.Soundness

What is read was there: a value that a scanner reads is spelled by the characters it took, as the
grammar has it. One lemma for each reading function says so from what the functions that it calls
satisfy (`value_spelled` to `items_spelled`); `reading_sound` puts them together.
-/

namespace LaxJson

namespace Grammar

theorem slotItems_cons (slot : Option Value) {slots : List (Option Value)} (h : slots ≠ []) :
    slotItems (slot :: slots) = slot.getD .null :: slotItems slots := by
  cases slot with
  | none =>
    obtain ⟨next, rest, rfl⟩ := List.exists_cons_of_ne_nil h
    rfl
  | some v => rfl

theorem Derives.slots_ne_nil {o : Options} {room : Nat} {slots : List (Option Value)}
    {w : List Char} (h : Derives o room (.slots slots) w) : slots ≠ [] := by
  cases h <;> exact List.cons_ne_nil _ _

/-- Members added one by one make up the object that they amount to. -/
theorem foldl_addMember (o : Options) (ms : List (String × Value)) :
    ms.foldl (fun acc m => Scanner.addMember o acc m.1 m.2) [] = objectMembers o ms := by
  rw [objectMembers, ← Members.foldl_put]
  simp only [Scanner.addMember_eq]
  cases o.dropNulls with
  | false => simp only [Bool.false_eq_true, false_and, if_false]
  | true => simp only [if_true, true_and, List.foldl_filter, decide_eq_true_iff, ite_not]

end Grammar

namespace Scanner

open Grammar

variable {o : Options} {d : Nat} {r : List Char} {s s' : Scanner CharsSource}

/-- The value is spelled by the first part of `r`, and the scanner stands after it. -/
def Spelled (o : Options) (d : Nat) (r : List Char) (v : Value) (s' : Scanner CharsSource) : Prop :=
  ∃ w tail, r = w ++ tail ∧ Derives o (o.maxDepth - d) (.value v) w ∧ Before o d (solid tail) s'

def ValueSound (o : Options) (s : Scanner CharsSource) : Prop :=
  ∀ d r v s', Before o d r s → s.value = (.ok v, s') → Spelled o d r v s'

def ObjectSound (o : Options) (s : Scanner CharsSource) : Prop :=
  ∀ d r v s', Before o d r s → s.object = (.ok v, s') → Spelled o d r v s'

def ArraySound (o : Options) (s : Scanner CharsSource) : Prop :=
  ∀ d r v s', Before o d r s → s.array = (.ok v, s') → Spelled o d r v s'

/-- The object is closed at once, or after more members. -/
def MembersSound (o : Options) (ms : Members Value) (s : Scanner CharsSource) : Prop :=
  ∀ d r ms' s', Before o d r s → members ms s = (.ok ms', s') →
    (ms' = ms ∧ ∃ tail, r = '\x7d' :: tail ∧ At o d tail s') ∨
      ∃ w b tail more, r = w ++ b ++ '\x7d' :: tail ∧
        Derives o (o.maxDepth - d) (.members more) w ∧ Blanks b ∧
        ms' = more.foldl (fun acc m => addMember o acc m.1 m.2) ms ∧ At o d tail s'

def ItemsSound (o : Options) (before : List Value) (s : Scanner CharsSource) : Prop :=
  ∀ d r vs s', Before o d r s → items before s = (.ok vs, s') →
    ∃ w b tail slots, r = w ++ b ++ ']' :: tail ∧ Derives o (o.maxDepth - d) (.slots slots) w ∧
      Blanks b ∧ vs = before.reverse ++ slotItems slots ∧ At o d tail s'

/-! ## Opening and closing -/

theorem Before.enter (h : Before o d r s) : Before o (d + 1) r s.enter :=
  ⟨h.options, congrArg Nat.succ h.depth, h.rest⟩

theorem At.leave (h : At o (d + 1) r s) : At o d r s.leave :=
  ⟨h.options, congrArg Nat.pred h.depth, h.rest⟩

theorem Before.full (h : Before o d r s) : s.full = decide (o.maxDepth ≤ d) := by
  rw [Scanner.full, h.options, h.depth]

theorem room_succ (h : ¬o.maxDepth ≤ d) : o.maxDepth - d = o.maxDepth - (d + 1) + 1 := by omega

theorem Before.exists_blanks {w tail : List Char} (h : Before o d r s) (hr : r = w ++ tail) :
    ∃ b, Blanks b ∧ tail = b ++ solid tail := by
  apply Grammar.exists_blanks
  intro hmem
  exact h.unended (hr ▸ List.mem_append_right w hmem)

theorem Before.unended_tail {c : Char} {r' : List Char} (h : Before o d r s) (hr : r = c :: r') :
    endMark ∉ r' := by
  intro hmem
  exact h.unended (hr ▸ List.mem_cons_of_mem c hmem)

theorem object_separator {c : Char} (h : c ∈ Container.object.separators) : c = ',' ∨ c = ';' := by
  simpa [Container.separators] using h

theorem array_separator {c : Char} (h : c ∈ Container.array.separators) : c = ',' :=
  List.mem_singleton.mp h

/-! ## Values -/

theorem value_spelled (hobject : ∀ t : Scanner CharsSource, t.unread ≤ s.unread → ObjectSound o t)
    (harray : ∀ t : Scanner CharsSource, t.unread ≤ s.unread → ArraySound o t) :
    ValueSound o s := by
  intro d r v s' h hv
  rw [value_eq] at hv
  split at hv
  · cases hv
  · rename_i c s1 hn
    obtain ⟨hc, hread⟩ := nextSolid_read h hn
    split at hv
    · rename_i hquote
      split at hv
      · cases hv
      · rename_i t s2 hs2
        cases hv
        obtain ⟨r', rfl⟩ := cons_of_headD hc (by rcases hquote with rfl | rfl <;> decide)
        obtain ⟨w, tail, hr, hw, hat⟩ := quoted_sound hquote hread.at hs2
        exact ⟨w, tail, hr, .quoted hw, hat.before⟩
    · rename_i hquote
      obtain ⟨s2, hs2, hat⟩ := stepBack_at hread
      have hunread := unread_stepBack (nextSolid_took hn) hs2
      rw [hs2] at hv
      dsimp only at hv
      split at hv
      · exact hobject s2 hunread d r v s' (hat.before_of_solid h.solid_eq) hv
      · split at hv
        · exact harray s2 hunread d r v s' (hat.before_of_solid h.solid_eq) hv
        · split at hv
          · cases hv
          · rename_i t s3 hs3
            split at hv
            · cases hv
            · rename_i hne
              cases hv
              cases r with
              | nil =>
                obtain ⟨s4, hs4, -⟩ := bare_at hat
                cases hs3.symm.trans hs4
                exact absurd rfl hne
              | cons c' r =>
                obtain ⟨w, tail, hr, hw, rfl, hbefore⟩ := literal_sound hat
                  (not_blank_of_solid h.solid_eq) (fun hq => hquote (.inr (hc.trans hq))) hs3 hne
                exact ⟨w, tail, hr, .literal hw, hbefore⟩

theorem object_spelled
    (hmembers : ∀ ms, ∀ t : Scanner CharsSource, t.unread < s.unread → MembersSound o ms t) :
    ObjectSound o s := by
  intro d r v s' h hv
  rw [object_eq, h.full] at hv
  split at hv
  · cases hv
  · rename_i hfull
    rw [decide_eq_true_iff] at hfull
    split at hv
    · cases hv
    · rename_i s1 hs1
      obtain ⟨r1, rfl, hat⟩ := opening_sound h.enter hs1
      have hunread : s1.unread < s.unread := unread_opening (s := s.enter) hs1
      split at hv
      · cases hv
      · rename_i ms s2 hs2
        cases hv
        obtain ⟨b, hb, hr1⟩ := exists_blanks hat.unended
        rw [Spelled, room_succ hfull]
        rcases hmembers [] s1 hunread _ _ _ _ hat.before hs2 with
          ⟨rfl, tail, hr, hat'⟩ | ⟨w, b', tail, more, hr, hw, hb', rfl, hat'⟩
        · refine ⟨'\x7b' :: (b ++ ['\x7d']), tail, ?_, .emptyObject hb, hat'.leave.before⟩
          rw [hr1, hr]
          simp [Container.opening]
        · refine ⟨'\x7b' :: (b ++ w ++ b' ++ ['\x7d']), tail, ?_, ?_, hat'.leave.before⟩
          · rw [hr1, hr]
            simp [Container.opening]
          · rw [foldl_addMember]
            exact .object hb hw hb'

theorem array_spelled
    (hitems : ∀ before, ∀ t : Scanner CharsSource, t.unread < s.unread → ItemsSound o before t) :
    ArraySound o s := by
  intro d r v s' h hv
  rw [array_eq, h.full] at hv
  split at hv
  · cases hv
  · rename_i hfull
    rw [decide_eq_true_iff] at hfull
    split at hv
    · cases hv
    · rename_i s1 hs1
      obtain ⟨r1, rfl, hat⟩ := opening_sound h.enter hs1
      have hunread : s1.unread < s.unread := unread_opening (s := s.enter) hs1
      obtain ⟨b, hb, hr1⟩ := exists_blanks hat.unended
      rw [Spelled, room_succ hfull]
      split at hv
      · cases hv
      · rename_i s2 hs2
        cases hv
        rcases closes_sound hat.before hs2 with ⟨-, tail, hr, hat'⟩ | ⟨hfalse, -⟩
        · refine ⟨'[' :: (b ++ [] ++ [] ++ [']']), tail, ?_, .array hb (.lastSlot .emptySlot) .nil,
            hat'.leave.before⟩
          rw [hr1, hr]
          simp [Container.opening, Container.closing]
        · cases hfalse
      · rename_i s2 hs2
        have hunread2 := Nat.lt_of_le_of_lt (unread_closes hs2) hunread
        rcases closes_sound hat.before hs2 with ⟨htrue, -⟩ | ⟨-, -, hbefore⟩
        · cases htrue
        split at hv
        · cases hv
        · rename_i vs s3 hs3
          cases hv
          obtain ⟨w, b', tail, slots, hr, hw, hb', rfl, hat'⟩ :=
            hitems [] s2 hunread2 _ _ _ _ hbefore hs3
          refine ⟨'[' :: (b ++ w ++ b' ++ [']']), tail, ?_, .array hb hw hb', hat'.leave.before⟩
          rw [hr1, hr]
          simp [Container.opening]

/-! ## Members and items -/

/-- A key, a colon and a value make up a member. -/
theorem member_spelled {key : String} {v : Value} {s1 s2 s3 : Scanner CharsSource}
    (hvalue : ValueSound o s2) (h : Before o d r s) (hkey : s.nextKey = (.ok (some key), s1))
    (hcolon : s1.colon = (.ok (), s2)) (hv : s2.value = (.ok v, s3)) :
    s2.options = o ∧ ∃ w tail, r = w ++ tail ∧ Derives o (o.maxDepth - d) (.member key v) w ∧
      Before o d (solid tail) s3 := by
  rcases nextKey_sound h hkey with ⟨hnone, -⟩ | ⟨k, tail1, name, hsome, rfl, hk, h1⟩
  · cases hnone
  cases hsome
  obtain ⟨b1, hb1, htail1⟩ := h.exists_blanks rfl
  obtain ⟨r2, hr2, hat2⟩ := colon_sound h1 hcolon
  obtain ⟨b2, hb2, hr2'⟩ := exists_blanks hat2.unended
  obtain ⟨w, tail, hr, hw, h3⟩ := hvalue d _ v s3 hat2.before hv
  refine ⟨hat2.options, k ++ b1 ++ ':' :: (b2 ++ w), tail, ?_, .member hk hb1 hb2 hw, h3⟩
  rw [htail1, hr2, hr2', hr]
  simp only [List.append_assoc, List.cons_append]

theorem members_spelled {ms : Members Value}
    (hvalue : ∀ t : Scanner CharsSource, t.unread < s.unread → ValueSound o t)
    (hmembers : ∀ ms', ∀ t : Scanner CharsSource, t.unread < s.unread → MembersSound o ms' t) :
    MembersSound o ms s := by
  intro d r ms' s' h hms
  rw [members_eq] at hms
  split at hms
  · cases hms
  · rename_i s1 hs1
    cases hms
    rcases nextKey_sound h hs1 with ⟨-, tail, hr, hat⟩ | ⟨w, tail, name, hsome, -⟩
    · exact .inl ⟨rfl, tail, hr, hat⟩
    · cases hsome
  · rename_i key s1 hs1
    split at hms
    · cases hms
    · rename_i s2 hs2
      split at hms
      · cases hms
      split at hms
      · cases hms
      · rename_i v s3 hs3
        have hunread2 : s2.unread < s.unread :=
          Nat.lt_of_le_of_lt (unread_colon hs2) (unread_nextKey hs1)
        obtain ⟨hoptions, w, tail, rfl, hw, h3⟩ :=
          member_spelled (hvalue s2 hunread2) h hs1 hs2 hs3
        obtain ⟨b, hb, htail⟩ := h.exists_blanks rfl
        rw [hoptions] at hms
        split at hms
        · cases hms
        · rename_i s4 hs4
          cases hms
          rcases separator_sound h3 hs4 with
            ⟨-, tail', hr, hat⟩ | ⟨c, r', hr, hc, ⟨-, tail', hr', hat⟩ | ⟨hfalse, -⟩⟩
          · refine .inr ⟨w, b, tail', [(key, v)], ?_, .lastMember hw, hb, rfl, hat⟩
            rw [htail, hr, List.append_assoc]
            rfl
          · obtain ⟨b', hb', hr''⟩ := exists_blanks (h3.unended_tail hr)
            refine .inr ⟨w ++ b ++ [c], b', tail', [(key, v)], ?_,
              .separated hw hb (object_separator hc), hb', rfl, hat⟩
            rw [htail, hr, hr'', hr']
            simp [Container.closing]
          · cases hfalse
        · rename_i s4 hs4
          have hunread4 : s4.unread < s.unread :=
            Nat.lt_trans (unread_separator hs4) (Nat.lt_trans (unread_value hs3) hunread2)
          rcases separator_sound h3 hs4 with
            ⟨htrue, -⟩ | ⟨c, r', hr, hc, ⟨htrue, -⟩ | ⟨-, hopen, h4⟩⟩
          · cases htrue
          · cases htrue
          obtain ⟨b', hb', hr''⟩ := exists_blanks (h3.unended_tail hr)
          rcases hmembers _ s4 hunread4 _ _ _ _ h4 hms with
            ⟨-, tail', hr', -⟩ | ⟨w', b'', tail', more, hr', hw', hb'', rfl, hat⟩
          · rw [hr'] at hopen
            exact absurd rfl hopen
          · refine .inr ⟨w ++ b ++ c :: (b' ++ w'), b'', tail', (key, v) :: more, ?_,
              .moreMembers hw hb (object_separator hc) hb' hw', hb'', rfl, hat⟩
            rw [htail, hr, hr'', hr']
            simp

/-- A slot after which the array is closed, with or without a comma before the bracket. -/
theorem slots_closed {slot : Option Value} {w tail : List Char} {before : List Value}
    (hw : Derives o (o.maxDepth - d) (.slot slot) w) (h : Before o d r s) (hr : r = w ++ tail)
    {s1 s2 : Scanner CharsSource} (h1 : Before o d (solid tail) s1)
    (hempty : slot = none → (solid tail).headD endMark ≠ ']')
    (hs2 : s1.separator .array = (.ok true, s2)) :
    ∃ w' b tail' slots, r = w' ++ b ++ ']' :: tail' ∧
      Derives o (o.maxDepth - d) (.slots slots) w' ∧ Blanks b ∧
      (slot.getD .null :: before).reverse = before.reverse ++ slotItems slots ∧
      At o d tail' s2 := by
  obtain ⟨b, hb, htail⟩ := h.exists_blanks hr
  rcases separator_sound h1 hs2 with
    ⟨-, tail', hsolid, hat⟩ | ⟨c, r', hsolid, hc, ⟨-, tail', hr', hat⟩ | ⟨hfalse, -⟩⟩
  · cases slot with
    | none =>
      rw [hsolid] at hempty
      exact absurd rfl (hempty rfl)
    | some v =>
      refine ⟨w, b, tail', [some v], ?_, .lastSlot hw, hb, List.reverse_cons, hat⟩
      rw [hr, htail, hsolid, List.append_assoc]
      rfl
  · obtain ⟨b', hb', hr''⟩ := exists_blanks (h1.unended_tail hsolid)
    refine ⟨w ++ b ++ ',' :: (b' ++ []), [], tail', [slot, none], ?_,
      .moreSlots hw hb hb' (.lastSlot .emptySlot), .nil, ?_, hat⟩
    · rw [hr, htail, hsolid, hr'', hr', array_separator hc]
      simp [Container.closing]
    · rw [slotItems_cons slot (List.cons_ne_nil none [])]
      exact List.reverse_cons
  · cases hfalse

/-- A slot with more slots after it. -/
theorem slots_open {slot : Option Value} {w tail : List Char} {before vs : List Value}
    (hw : Derives o (o.maxDepth - d) (.slot slot) w) (h : Before o d r s) (hr : r = w ++ tail)
    {s1 s2 : Scanner CharsSource} (h1 : Before o d (solid tail) s1)
    (hs2 : s1.separator .array = (.ok false, s2))
    (hitems : ItemsSound o (slot.getD .null :: before) s2)
    (hvs : items (slot.getD .null :: before) s2 = (.ok vs, s')) :
    ∃ w' b tail' slots, r = w' ++ b ++ ']' :: tail' ∧
      Derives o (o.maxDepth - d) (.slots slots) w' ∧ Blanks b ∧
      vs = before.reverse ++ slotItems slots ∧ At o d tail' s' := by
  obtain ⟨b, hb, htail⟩ := h.exists_blanks hr
  rcases separator_sound h1 hs2 with
    ⟨htrue, -⟩ | ⟨c, r', hsolid, hc, ⟨htrue, -⟩ | ⟨-, -, h2⟩⟩
  · cases htrue
  · cases htrue
  obtain ⟨b', hb', hr''⟩ := exists_blanks (h1.unended_tail hsolid)
  obtain ⟨w', b'', tail', slots, hr', hw', hb'', rfl, hat⟩ := hitems _ _ _ _ h2 hvs
  refine ⟨w ++ b ++ ',' :: (b' ++ w'), b'', tail', slot :: slots, ?_,
    .moreSlots hw hb hb' hw', hb'', ?_, hat⟩
  · rw [hr, htail, hsolid, hr'', hr', array_separator hc]
    simp
  · rw [slotItems_cons slot hw'.slots_ne_nil, List.reverse_cons, List.append_assoc]
    rfl

theorem items_spelled {before : List Value}
    (hvalue : ∀ t : Scanner CharsSource, t.unread ≤ s.unread → ValueSound o t)
    (hitems : ∀ before', ∀ t : Scanner CharsSource, t.unread < s.unread → ItemsSound o before' t) :
    ItemsSound o before s := by
  intro d r vs s' h hvs
  rw [items_eq] at hvs
  split at hvs
  · cases hvs
  · rename_i s1 hs1
    obtain ⟨⟨c, r', rfl, hc⟩, h1⟩ := emptySlot_sound h hs1
    have hunread := unread_emptySlot hs1
    rw [← h.solid_eq] at h1
    have hempty : (solid (c :: r')).headD endMark ≠ ']' := by
      rw [h.solid_eq, of_decide_eq_true hc.symm, List.headD_cons]
      decide
    split at hvs
    · cases hvs
    · rename_i s2 hs2
      cases hvs
      exact slots_closed .emptySlot h rfl h1 (fun _ => hempty) hs2
    · rename_i s2 hs2
      have hlt := Nat.lt_of_lt_of_le (unread_separator hs2) hunread
      exact slots_open .emptySlot h rfl h1 hs2 (hitems _ s2 hlt) hvs
  · rename_i s1 hs1
    obtain ⟨-, h1⟩ := emptySlot_sound h hs1
    have hunread := unread_emptySlot hs1
    split at hvs
    · cases hvs
    · rename_i v s2 hs2
      obtain ⟨w, tail, hr, hw, h2⟩ := hvalue s1 hunread _ _ _ _ h1 hs2
      have hlt := Nat.lt_of_lt_of_le (unread_value hs2) hunread
      split at hvs
      · cases hvs
      · rename_i s3 hs3
        cases hvs
        exact slots_closed (.fullSlot hw) h hr h2 nofun hs3
      · rename_i s3 hs3
        have hlt' := Nat.lt_trans (unread_separator hs3) hlt
        exact slots_open (.fullSlot hw) h hr h2 hs3 (hitems _ s3 hlt') hvs

/-! ## Documents -/

theorem reading_sound (o : Options) :
    Everywhere (ValueSound o) (ObjectSound o) (ArraySound o) (MembersSound o) (ItemsSound o) :=
  reading_induction
    (fun _ hobject harray => value_spelled hobject harray)
    (fun _ hmembers => object_spelled hmembers)
    (fun _ hitems => array_spelled hitems)
    (fun _ _ hvalue hmembers => members_spelled hvalue hmembers)
    (fun _ _ hvalue hitems => items_spelled hvalue hitems)

/-- A document that is read is one. -/
theorem document_sound (h : At o 0 r s) {v : Value} (hv : s.document = (.ok v, s')) :
    Document o r v := by
  unfold document at hv
  split at hv
  · cases hv
  · rename_i v1 s1 hs1
    split at hv
    · cases hv
    · rename_i c s2 hs2
      split at hv
      · rename_i hc
        cases hv
        obtain ⟨b, hb, hr⟩ := exists_blanks h.unended
        obtain ⟨w, tail, hsolid, hw, h1⟩ := (reading_sound o).value s _ _ _ _ h.before hs1
        obtain ⟨hend, -⟩ := nextSolid_read h1 hs2
        have hnil : solid tail = [] := by
          cases hsolid' : solid tail with
          | nil => rfl
          | cons c' r' =>
            rw [hsolid'] at h1 hend
            exact absurd (hend.symm.trans hc ▸ List.mem_cons_self) h1.unended
        obtain ⟨b', hb', htail⟩ := h.before.exists_blanks hsolid
        rw [hnil, List.append_nil] at htail
        exact ⟨b, w, b', by rw [hr, hsolid, htail, List.append_assoc], hb, hw, hb'⟩
      · cases hv

end Scanner
end LaxJson
