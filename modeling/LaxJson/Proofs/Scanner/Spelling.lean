import LaxJson.Proofs.Scanner.Offers
import LaxJson.Proofs.Scanner.Strings

/-!
# LaxJson.Proofs.Scanner.Spelling

Quoted strings over any source, complete: what is read as a string, what it stands for, and how each
text that is none is refused.

* `Broken`: what cannot be completed as the next piece of a string, with the message.
  `exists_outcome`: everything before the end of the input is a string or broken somewhere.
* `Spelling`: the ways to write a text character by character. `Spelling.body`: its code units are
  those of the text.
* `quotedFrom_body`: whole pieces are taken one after the other; what happens then is decided by
  what follows them (`quotedFrom_closed`, `quotedFrom_broken`).
* `quoted_decodes`: what is said of `quoted` altogether.
-/

namespace LaxJson

namespace Grammar

variable {quote : Char} {r w : List Char}

/-! ## What is no string -/

/-- What cannot be completed where the next piece of a string should be, and the message. -/
inductive Broken : List Char → String → Prop where
  | ended : Broken [endMark] "unterminated string"
  | letter {c : Char} : c ≠ 'u' → (∀ d, (c, d) ∉ escapes) → Broken ['\\', c] "illegal escape"
  | short {ds : List Char} : ds.length < 4 → endMark ∉ ds →
    Broken ('\\' :: 'u' :: (ds ++ [endMark])) "substring bounds error"
  | digits {ds : List Char} {c : Char} : ds.length = 4 → endMark ∉ ds → c ∈ ds →
    (∀ n, ¬HexDigit c n) → Broken ('\\' :: 'u' :: ds) "illegal escape"

theorem hexValue?_isSome {n : Nat} {ds : List Char} :
    (∃ u, hexValue? n ds = some u) ↔ ∀ c ∈ ds, ∃ m, HexDigit c m := by
  induction ds generalizing n with
  | nil => exact ⟨fun _ => by rintro _ ⟨⟩, fun _ => ⟨n, rfl⟩⟩
  | cons c ds ih =>
    simp only [hexValue?_cons, List.forall_mem_cons]
    constructor
    · rintro ⟨u, m, hc, hrest⟩
      exact ⟨⟨m, hc⟩, ih.mp ⟨u, hrest⟩⟩
    · rintro ⟨⟨m, hc⟩, hrest⟩
      obtain ⟨u, hu⟩ := ih.mpr hrest
      exact ⟨u, m, hc, hu⟩

theorem hexValue?_eq_some_iff_escape {ds : List Char} {u : Nat} (h : ds.length = 4) :
    hexValue? 0 ds = some u ↔ Escape ('u' :: ds) [u] := by
  obtain ⟨c₁, c₂, c₃, c₄, rfl⟩ := List.length_eq_four.mp h
  exact hexValue?_four

/-- Pieces of a string come first, and then its closing quote or something broken. -/
def Decided (quote : Char) (r : List Char) : Prop :=
  ∃ w us, StringBody quote w us ∧
    (w ++ [quote] <+: r ∨ ∃ stop message, Broken stop message ∧ w ++ stop <+: r)

theorem Decided.of_broken {stop : List Char} {message : String} (h : Broken stop message)
    (hstop : stop <+: r) : Decided quote r :=
  ⟨[], [], .nil, .inr ⟨stop, message, h, hstop⟩⟩

theorem Decided.raw {c : Char} (hmark : c ≠ endMark) (hslash : c ≠ '\\') (hquote : c ≠ quote)
    (h : Decided quote r) : Decided quote (c :: r) := by
  obtain ⟨w, us, hw, hnext⟩ := h
  refine ⟨c :: w, _, .raw hmark hslash hquote hw, ?_⟩
  obtain hclosed | ⟨stop, message, hstop, hbroken⟩ := hnext
  · exact .inl (List.cons_prefix_cons.mpr ⟨rfl, hclosed⟩)
  · exact .inr ⟨stop, message, hstop, List.cons_prefix_cons.mpr ⟨rfl, hbroken⟩⟩

theorem Decided.escape {e : List Char} {us : List Nat} (he : Escape e us) (h : Decided quote r) :
    Decided quote ('\\' :: (e ++ r)) := by
  obtain ⟨w, us', hw, hnext⟩ := h
  refine ⟨'\\' :: (e ++ w), _, .escape he hw, ?_⟩
  simp only [List.cons_append, List.append_assoc, List.cons_prefix_cons,
    List.prefix_append_right_inj, true_and]
  exact hnext

/-- After a backslash there is an escape or something broken. -/
theorem decided_escape {r : List Char} (hr : endMark ∉ r)
    (ih : ∀ r' : List Char, r' <:+ r → Decided quote (r' ++ [endMark])) :
    Decided quote ('\\' :: (r ++ [endMark])) := by
  cases r with
  | nil =>
    refine .of_broken (.letter (c := endMark) (by decide) ?_) (List.prefix_refl _)
    intro d hd
    cases simpleEscape?_eq_some.mpr hd
  | cons c r =>
    rw [List.mem_cons, not_or] at hr
    by_cases hu : c = 'u'
    · subst hu
      rcases Nat.lt_or_ge r.length 4 with hshort | hlong
      · exact .of_broken (.short hshort hr.2) (List.prefix_refl _)
      obtain ⟨ds, r', rfl, hds⟩ : ∃ ds r', r = ds ++ r' ∧ ds.length = 4 :=
        ⟨r.take 4, r.drop 4, (List.take_append_drop 4 r).symm, List.length_take_of_le hlong⟩
      by_cases hhex : ∀ c ∈ ds, ∃ n, HexDigit c n
      · obtain ⟨u, hu⟩ := (hexValue?_isSome (n := 0)).mpr hhex
        have he := (hexValue?_eq_some_iff_escape hds).mp hu
        rw [List.cons_append, List.append_assoc]
        exact .escape he (ih r' (List.suffix_cons_iff.mpr (.inr (List.suffix_append _ _))))
      · simp only [not_forall, not_exists] at hhex
        obtain ⟨c, hc, hdigit⟩ := hhex
        refine .of_broken (.digits hds (fun h => hr.2 (List.mem_append_left _ h)) hc hdigit) ?_
        rw [List.cons_append, List.append_assoc]
        exact List.prefix_append ('\\' :: 'u' :: ds) _
    · by_cases hletter : ∃ d, (c, d) ∈ escapes
      · obtain ⟨d, hd⟩ := hletter
        exact Decided.escape (e := [c]) (.simple hd) (ih r (List.suffix_cons c r))
      · refine .of_broken (.letter hu fun d hd => hletter ⟨d, hd⟩) ?_
        exact List.prefix_append ['\\', c] _

/-- Everything before the end of the input is a string or broken somewhere. -/
theorem exists_outcome (quote : Char) {r : List Char} (hr : endMark ∉ r) :
    Decided quote (r ++ [endMark]) := by
  induction hn : r.length using Nat.strongRecOn generalizing r with
  | ind n ih =>
    subst hn
    cases r with
    | nil => exact .of_broken .ended (List.prefix_refl _)
    | cons c r =>
      rw [List.mem_cons, not_or] at hr
      have hrest : ∀ r', r' <:+ r → Decided quote (r' ++ [endMark]) := by
        intro r' hsuffix
        exact ih r'.length (Nat.lt_succ_of_le hsuffix.length_le) (fun h => hr.2 (hsuffix.mem h)) rfl
      by_cases hslash : c = '\\'
      · subst hslash
        exact decided_escape hr.2 hrest
      by_cases hquote : c = quote
      · subst hquote
        exact ⟨[], [], .nil, .inl (List.prefix_append [c] _)⟩
      · exact .raw (Ne.symm hr.1) hslash hquote (hrest r (List.suffix_refl r))

/-! ## What spells a text -/

/-- The ways to write a text: its characters as they are, if they may be, by an escape of one
letter, or by their code units. -/
inductive Spelling (quote : Char) : List Char → List Char → Prop where
  | nil : Spelling quote [] []
  | raw {c : Char} {w text : List Char} : c ≠ endMark → c ≠ '\\' → c ≠ quote →
    Spelling quote w text → Spelling quote (c :: w) (c :: text)
  | letter {c d : Char} {w text : List Char} : (c, d) ∈ escapes →
    Spelling quote w text → Spelling quote ('\\' :: c :: w) (d :: text)
  | unit {c : Char} {u : Nat} {ds w text : List Char} : Utf16.units c = [u] →
    Escape ('u' :: ds) [u] → Spelling quote w text →
      Spelling quote ('\\' :: 'u' :: (ds ++ w)) (c :: text)
  | pair {c : Char} {u v : Nat} {ds ds' w text : List Char} : Utf16.units c = [u, v] →
    Escape ('u' :: ds) [u] → Escape ('u' :: ds') [v] → Spelling quote w text →
      Spelling quote ('\\' :: 'u' :: (ds ++ '\\' :: 'u' :: (ds' ++ w))) (c :: text)

theorem Spelling.body {text : List Char} (h : Spelling quote w text) :
    StringBody quote w (text.flatMap Utf16.units) := by
  induction h with
  | nil => exact .nil
  | raw hmark hslash hquote _ ih => exact .raw hmark hslash hquote ih
  | letter hc _ ih => exact .escape (.simple hc) ih
  | unit hc hu _ ih =>
    rw [List.flatMap_cons, hc]
    exact .escape hu ih
  | pair hc hu hv _ ih =>
    rw [List.flatMap_cons, hc]
    exact .escape hu (.escape hv ih)

theorem exists_escape {u : Nat} (h : u < 0x10000) : ∃ ds, Escape ('u' :: ds) [u] := by
  have hdigit : ∀ n, n < 16 → HexDigit (Nat.digitChar n) n := fun n hn => ⟨hn, .inl rfl⟩
  have hescape := Escape.unicode (hdigit (u / 0x1000) (by omega))
    (hdigit (u / 0x100 % 16) (by omega)) (hdigit (u / 0x10 % 16) (by omega))
    (hdigit (u % 16) (by omega))
  have hvalue : ((u / 0x1000 * 16 + u / 0x100 % 16) * 16 + u / 0x10 % 16) * 16 + u % 16 = u := by
    omega
  rw [hvalue] at hescape
  exact ⟨_, hescape⟩

/-- Every text can be written, if only by its code units. -/
theorem exists_spelling (quote : Char) (text : List Char) : ∃ w, Spelling quote w text := by
  induction text with
  | nil => exact ⟨[], .nil⟩
  | cons c text ih =>
    obtain ⟨w, hw⟩ := ih
    have hc : c.toNat < 0x110000 := by
      have hvalid : c.toNat < 0xD800 ∨ 0xDFFF < c.toNat ∧ c.toNat < 0x110000 := c.valid
      omega
    by_cases hone : c.toNat < 0x10000
    · obtain ⟨ds, hds⟩ := exists_escape hone
      exact ⟨_, .unit (if_pos hone) hds hw⟩
    · obtain ⟨ds, hds⟩ := exists_escape (u := 0xD800 + (c.toNat - 0x10000) / 0x400) (by omega)
      obtain ⟨ds', hds'⟩ := exists_escape (u := 0xDC00 + (c.toNat - 0x10000) % 0x400) (by omega)
      exact ⟨_, .pair (if_neg hone) hds hds' hw⟩

end Grammar

namespace Scanner

open CharSource (Yields)
open Grammar

variable {σ : Type} [CharSource σ] {s : Scanner σ} {quote : Char} {w ds : List Char}

/-! ## One piece -/

/-- The four characters after the letter of an escape, whatever these are. -/
theorem take_offered (hds : ds.length = 4) (hmark : endMark ∉ ds) (h : Offers ('u' :: ds) s) :
    s.next.2.take 4 = (.ok (String.ofList ds), s.nextTimes 5) := by
  rw [take_of_le (by decide), ← hds, takeFrom_offered [] hmark h.2, hds]
  rfl

theorem escape_offered {e : List Char} {us : List Nat} (he : Escape e us) (h : Offers e s) :
    ∃ x, s.escape = (.ok x, s.nextTimes e.length) ∧
      ∀ b : Utf16.Builder, b.pushEscaped x = us.foldl Utf16.Builder.pushUnit b := by
  cases he with
  | @simple letter c hc =>
    have hu : letter ≠ 'u' := by
      rintro rfl
      cases simpleEscape?_eq_some.mpr hc
    refine ⟨.char c, ?_, fun b => Utf16.Builder.push_eq b c⟩
    rw [escape, h.next]
    simp only [if_neg hu, simpleEscape?_eq_some.mpr hc]
    rfl
  | @unicode c₁ c₂ c₃ c₄ n₁ n₂ n₃ n₄ h₁ h₂ h₃ h₄ =>
    have hvalue := hexValue?_four.mpr (Escape.unicode h₁ h₂ h₃ h₄)
    have hmark : endMark ∉ [c₁, c₂, c₃, c₄] := by
      intro hmem
      obtain ⟨n, hn⟩ := hexValue?_isSome.mp ⟨_, hvalue⟩ endMark hmem
      cases hexDigit?_eq_some.mpr hn
    refine ⟨.unit _, ?_, fun b => rfl⟩
    rw [escape, h.next]
    simp only [if_true, take_offered rfl hmark h, String.toList_ofList, hvalue]
    rfl

theorem escape_broken {stop : List Char} {message : String} (hstop : Broken ('\\' :: stop) message)
    (h : Offers stop s) :
    ∃ f : Fault, f.message = message ∧ s.escape = (s.nextTimes stop.length).fail f := by
  cases hstop with
  | @letter c hu hletter =>
    have hnone : simpleEscape? c = none := by
      cases hc : simpleEscape? c with
      | none => rfl
      | some d => exact absurd (simpleEscape?_eq_some.mp hc) (hletter d)
    refine ⟨.illegalEscape, rfl, ?_⟩
    rw [escape, h.next]
    simp only [if_neg hu, hnone]
    rfl
  | @short ds hshort hmark =>
    have htake : s.next.2.take 4 =
        (s.nextTimes (ds.length + 1 + 1)).fail .textTooShort := by
      rw [take_of_le (by decide), takeFrom_ended [] hshort hmark h.2]
      rfl
    refine ⟨.textTooShort, rfl, ?_⟩
    rw [escape, h.next]
    simp only [if_true, htake, List.length_cons, List.length_append, List.length_nil]
    rfl
  | @digits ds c hds hmark hc hdigit =>
    have hnone : hexValue? 0 ds = none := by
      cases hvalue : hexValue? 0 ds with
      | none => rfl
      | some u =>
        obtain ⟨n, hn⟩ := hexValue?_isSome.mp ⟨u, hvalue⟩ c hc
        exact absurd hn (hdigit n)
    refine ⟨.illegalEscape, rfl, ?_⟩
    rw [escape, h.next]
    simp only [if_true, take_offered hds hmark h, String.toList_ofList, hnone, List.length_cons,
      hds]

variable [FiniteSource σ]

/-! ## Whole strings -/

/-- Reading goes on after the pieces that come first. -/
theorem quotedFrom_body {us : List Nat} (hw : StringBody quote w us) (b : Utf16.Builder)
    (h : Offers w s) :
    quotedFrom quote b s =
      quotedFrom quote (us.foldl Utf16.Builder.pushUnit b) (s.nextTimes w.length) := by
  induction hw generalizing b s with
  | nil => rfl
  | @raw c w us hmark hslash hquote _ ih =>
    rw [quotedFrom_eq, h.next]
    simp only [if_neg hmark, if_neg hslash, if_neg hquote]
    rw [ih _ h.2, Utf16.Builder.push_eq, List.foldl_append]
    rfl
  | @escape e w us us' he _ ih =>
    obtain ⟨hhere, hrest⟩ := offers_append.mp h.2
    obtain ⟨x, hx, hbuilt⟩ := escape_offered he hhere
    rw [quotedFrom_eq, h.next]
    simp only [if_neg (show '\\' ≠ endMark by decide), if_true, hx]
    rw [ih _ hrest, hbuilt, List.foldl_append, List.length_cons, List.length_append, nextTimes,
      nextTimes_add]

theorem quotedFrom_closed (hmark : quote ≠ endMark) (hslash : quote ≠ '\\') (b : Utf16.Builder)
    (h : Offers [quote] s) : quotedFrom quote b s = (.ok b.finish, s.next.2) := by
  rw [quotedFrom_eq, h.next]
  simp only [if_neg hmark, if_neg hslash, if_true]

theorem quotedFrom_broken {stop : List Char} {message : String} (hstop : Broken stop message)
    (b : Utf16.Builder) (h : Offers stop s) :
    ∃ f : Fault, f.message = message ∧
      quotedFrom quote b s = (s.nextTimes stop.length).fail f := by
  have hescape : ∀ rest, Broken ('\\' :: rest) message → Offers ('\\' :: rest) s →
      ∃ f : Fault, f.message = message ∧
        quotedFrom quote b s = (s.nextTimes (rest.length + 1)).fail f := by
    intro rest hrest h
    obtain ⟨f, hf, hx⟩ := escape_broken hrest h.2
    refine ⟨f, hf, ?_⟩
    rw [quotedFrom_eq, h.next]
    simp only [if_neg (show '\\' ≠ endMark by decide), if_true, hx]
    rfl
  cases hstop with
  | ended =>
    refine ⟨.unterminatedString, rfl, ?_⟩
    rw [quotedFrom_eq, h.next]
    simp only [if_true]
    rfl
  | letter hu hletter => exact hescape _ (.letter hu hletter) h
  | short hds hmark => exact hescape _ (.short hds hmark) h
  | digits hds hmark hc hdigit => exact hescape _ (.digits hds hmark hc hdigit) h

/-- **Quoted strings are read as they are spelled.** Take any quote but the backslash and the end
mark. Where the pieces of a string and the quote come next, they are read, and no more; the result
is the text that their code units encode. Where something broken comes after the pieces, reading
fails behind that and says what it is. One or the other comes next on every input that does not
fail. And whichever way a text is written, it is the text that is read. -/
theorem quoted_decodes {quote : Char} (hmark : quote ≠ endMark) (hslash : quote ≠ '\\')
    (s : Scanner σ) :
    (∀ w us, StringBody quote w us → Offers (w ++ [quote]) s →
      s.quoted quote = (.ok (String.ofList (Utf16.decode us)), s.nextTimes (w.length + 1))) ∧
    (∀ w us stop message, StringBody quote w us → Broken stop message → Offers (w ++ stop) s →
      ∃ f : Fault, f.message = message ∧
        s.quoted quote = (s.nextTimes (w.length + stop.length)).fail f) ∧
    (∀ cs, Yields s.source cs → ∃ w us, StringBody quote w us ∧
      (Offers (w ++ [quote]) s ∨
        ∃ stop message, Broken stop message ∧ Offers (w ++ stop) s)) ∧
    ∀ text, (∃ w, Spelling quote w text) ∧ ∀ w, Spelling quote w text → Offers (w ++ [quote]) s →
      s.quoted quote = (.ok (String.ofList text), s.nextTimes (w.length + 1)) := by
  have hread : ∀ w us, StringBody quote w us → Offers (w ++ [quote]) s →
      s.quoted quote = (.ok (String.ofList (Utf16.decode us)), s.nextTimes (w.length + 1)) := by
    intro w us hw h
    obtain ⟨hbody, hquote⟩ := offers_append.mp h
    rw [quoted, quotedFrom_body hw _ hbody, quotedFrom_closed hmark hslash _ hquote,
      Utf16.Builder.finish_pushUnits, nextTimes_add]
    rfl
  refine ⟨hread, ?_, ?_, ?_⟩
  · intro w us stop message hw hstop h
    obtain ⟨hbody, hbroken⟩ := offers_append.mp h
    obtain ⟨f, hf, hfail⟩ :=
      quotedFrom_broken hstop (us.foldl Utf16.Builder.pushUnit .empty) hbroken
    refine ⟨f, hf, ?_⟩
    rw [quoted, quotedFrom_body hw _ hbody, hfail, nextTimes_add]
  · intro cs hyields
    have hoffers := offers_of_yields hyields
    obtain ⟨w, us, hw, hnext⟩ :=
      exists_outcome quote (not_mem_untilEnd (s.cursor.pending.toList ++ cs))
    refine ⟨w, us, hw, ?_⟩
    obtain hclosed | ⟨stop, message, hstop, hbroken⟩ := hnext
    · exact .inl (hoffers.shorter hclosed)
    · exact .inr ⟨stop, message, hstop, hoffers.shorter hbroken⟩
  · intro text
    refine ⟨exists_spelling quote text, ?_⟩
    intro w hw h
    rw [hread w _ hw.body h, Utf16.decode_units]

/-- A surrogate pair, in digits of either case, and a low surrogate that is left over. -/
theorem quoted_decodes_pair :
    let s := ofText "\\ud83d\\uDE00\\uDE00\"," {}
    '"' ≠ endMark ∧ '"' ≠ '\\' ∧
      s.quoted '"' = (.ok (String.ofList [Char.ofNat 0x1F600, replacement]), s.nextTimes 19) := by
  intro s
  have hhigh : Escape ['u', 'd', '8', '3', 'd'] [0xD83D] :=
    hexValue?_four.mp (by decide)
  have hlow : Escape ['u', 'D', 'E', '0', '0'] [0xDE00] :=
    hexValue?_four.mp (by decide)
  have hbody : StringBody '"' "\\ud83d\\uDE00\\uDE00".toList [0xD83D, 0xDE00, 0xDE00] :=
    .escape hhigh (.escape hlow (.escape hlow .nil))
  have hoffers : Offers ("\\ud83d\\uDE00\\uDE00".toList ++ ['"']) s :=
    (offers_of_yields (TextSource.yields_ofText _)).shorter (by decide)
  have hmark : '"' ≠ endMark := by decide
  have hslash : '"' ≠ '\\' := by decide
  exact ⟨hmark, hslash, (quoted_decodes hmark hslash s).1 _ _ hbody hoffers⟩

end Scanner

end LaxJson
