import LaxJson.Proofs.Document.Grammar
import LaxJson.Proofs.Grammar.Values
import LaxJson.Proofs.Scanner.Stricter
import LaxJson.Proofs.Scanner.Tracking
import LaxJson.Proofs.Value.Nesting

/-!
# LaxJson.Proofs.Document.Depth

What the depth limit does to a document. The containers that a run opens are its `openings`, in
order. Under a lower limit the run stops just before the first of them that is one too deep, and
otherwise nothing changes (`parse_maxDepth`).

* `firstRefusal_maxDepth`: a lower limit refuses just the openings beyond it.
* `find_openings`: openings get deeper one by one, so the first beyond the limit is at the limit.
* `opening_placed`: an opening stands just before its bracket.
* `Derives.within`: what the grammar derives with so much room nests no deeper.
-/

namespace LaxJson

open Grammar

namespace Scanner

variable {σ : Type}

/-- A container that is opened while `depth` others are open, with its opening bracket next. -/
structure Opening where
  container : Container
  depth : Nat
  position : Position

/-- The failure of a run that may not open the container. -/
def Opening.tooDeep (x : Opening) : Failure := .faulty (.tooDeep x.container) x.position

namespace Reading

/-- The container that the call opens, if it may open one. -/
def opening? : Reading σ → Option Opening
  | .object s => if s.full then none else some ⟨.object, s.depth, s.position⟩
  | .array s => if s.full then none else some ⟨.array, s.depth, s.position⟩
  | .value _ => none
  | .members _ _ => none
  | .items _ _ => none

theorem opening_some {r : Reading σ} {x : Opening} (h : r.opening? = some x) :
    x.depth = r.scanner.depth ∧ r.inner = r.scanner.depth + 1 := by
  cases r with
  | object s | array s =>
    simp only [opening?] at h
    split at h <;> cases h
    exact ⟨rfl, rfl⟩
  | value s | members ms s | items before s => cases h

variable [CharSource σ] [FiniteSource σ]

/-- The containers that a call and the calls below it open, in order. -/
def openings (r : Reading σ) : List Opening := r.readings.filterMap opening?

theorem openings_eq (r : Reading σ) :
    r.openings = r.opening?.toList ++ r.calls.flatMap openings := by
  have hcalls : (r.calls.flatMap readings).filterMap opening? = r.calls.flatMap openings :=
    List.filterMap_flatMap
  rw [openings, readings_eq, List.filterMap_cons, hcalls]
  cases r.opening? <;> rfl

end Reading

open Reading

variable [CharSource σ] [FiniteSource σ]

/-! ## A lower limit -/

theorem newRefusal_maxDepth {o : Options} {d d' : Nat} {r : Reading σ}
    (h : r.scanner.options = { o with maxDepth := d' }) :
    newRefusal { o with maxDepth := d' } { o with maxDepth := d } r =
      r.opening?.bind fun x => if d ≤ x.depth then some x.tooDeep else none := by
  cases r with
  | value s => rfl
  | items before s => rfl
  | object s | array s =>
    simp only [Reading.scanner] at h
    by_cases hfull : d' ≤ s.depth
    · simp [newRefusal, refusal, opening?, Scanner.full, h, hfull]
    · by_cases hdeep : d ≤ s.depth <;>
        simp [newRefusal, refusal, opening?, Scanner.full, h, hfull, hdeep, Opening.tooDeep,
          faultHere]
  | members ms s =>
    -- the depth does not come into what is held against a key
    have hsame : (Reading.members ms s).refusal { o with maxDepth := d } =
        (Reading.members ms s).refusal { o with maxDepth := d' } := rfl
    rw [newRefusal, hsame]
    cases (Reading.members ms s).refusal { o with maxDepth := d' } <;> rfl

theorem findSome?_bind {α β γ : Type} (f : α → Option β) (p : β → Bool) (g : β → γ) (l : List α) :
    l.findSome? (fun a => (f a).bind fun b => if p b then some (g b) else none) =
      ((l.filterMap f).find? p).map g := by
  induction l with
  | nil => rfl
  | cons a l ih =>
    rw [List.findSome?_cons, List.filterMap_cons, ih]
    cases f a with
    | none => rfl
    | some b => cases hp : p b <;> simp [hp]

theorem options_readings {r : Reading σ} {o : Options} (h : r.scanner.options = o) :
    ∀ r' ∈ r.readings, r'.scanner.options = o := by
  apply forall_readings (P := fun r : Reading σ => r.scanner.options = o) _ h
  intro r r' hr hcall
  exact (call_frame hcall).1.trans hr

/-- What the lower limit refuses first is the first opening beyond it. -/
theorem firstRefusal_maxDepth {o : Options} {d d' : Nat} {r : Reading σ}
    (h : r.scanner.options = { o with maxDepth := d' }) :
    firstRefusal { o with maxDepth := d' } { o with maxDepth := d } r =
      (r.openings.find? fun x => d ≤ x.depth).map Opening.tooDeep := by
  have hsame : r.readings.filterMap (newRefusal { o with maxDepth := d' } { o with maxDepth := d }) =
      r.readings.filterMap fun r => r.opening?.bind fun x =>
        if d ≤ x.depth then some x.tooDeep else none :=
    List.filterMap_congr fun r' hr' => newRefusal_maxDepth (options_readings h r' hr')
  rw [firstRefusal, ← List.head?_filterMap, hsame, List.head?_filterMap, openings, ← findSome?_bind]
  simp only [decide_eq_true_eq]

/-! ## Depth along the calls -/

theorem opening_none {r r' : Reading σ} (h : r.opening? = none) (hr' : r' ∈ r.calls) :
    r'.scanner.depth = r.scanner.depth := by
  have hdepth := (call_frame (call_of_mem hr')).2
  cases r with
  | object s | array s =>
    simp only [opening?] at h
    split at h
    · rename_i hfull
      simp only [calls, hfull, if_true] at hr'
      cases hr'
    · cases h
  | value s | members ms s | items before s => exact hdepth

/-- From at most `d` open containers on, the first opening beyond `d` is one with `d` open. -/
theorem find_openings {d : Nat} {r : Reading σ} (h : r.scanner.depth ≤ d) :
    (r.openings.find? fun x => d ≤ x.depth) = r.openings.find? fun x => x.depth = d := by
  induction r using Reading.induct with
  | step r ih =>
    have hcalls (hle : ∀ r' ∈ r.calls, r'.scanner.depth ≤ d) :
        ((r.calls.flatMap openings).find? fun x => d ≤ x.depth) =
          (r.calls.flatMap openings).find? fun x => x.depth = d := by
      rw [List.find?_flatMap, List.find?_flatMap, ← List.head?_filterMap, ← List.head?_filterMap]
      exact congrArg List.head? (List.filterMap_congr fun r' hr' => ih r' hr' (hle r' hr'))
    rw [openings_eq]
    cases hopening : r.opening? with
    | none =>
      apply hcalls
      intro r' hr'
      exact opening_none hopening hr' ▸ h
    | some x =>
      obtain ⟨hx, hinner⟩ := opening_some hopening
      rw [Option.toList_some, List.singleton_append, List.find?_cons, List.find?_cons, hx]
      by_cases hd : r.scanner.depth = d
      · simp [hd]
      · have hnot : ¬ d ≤ r.scanner.depth := by omega
        simp only [hd, hnot, decide_false]
        apply hcalls
        intro r' hr'
        have hdepth := (call_frame (call_of_mem hr')).2
        omega

/-! ## Where containers open -/

/-- Where a container opens, its bracket has just been put back. -/
theorem call_opening {r r' : Reading σ} {x : Opening} (hcall : Call r r')
    (hx : r'.opening? = some x) :
    x.position = r'.scanner.position ∧
      r'.scanner.cursor.pending = some x.container.opening := by
  have hpending : ∀ {s s1 s2 : Scanner σ} {c : Char}, s.nextSolid = (.ok c, s1) →
      s1.stepBack = (.ok (), s2) → s2.cursor.pending = some c := by
    intro s s1 s2 c hn hb
    have hprevious := (nextSolid_took hn).previous
    rw [(stepBack_ok hb).2]
    exact congrArg some hprevious
  cases hcall with
  | object hn hb | array hn hb =>
    simp only [opening?] at hx
    split at hx <;> cases hx
    exact ⟨rfl, hpending hn hb⟩
  | members | items | member | moreMembers | slot | moreSlots | moreEmptySlots => cases hx

/-- A scanner that stands in a text with a bracket put back stands just before that bracket. -/
theorem Tracks.placed {text : String} {s : Scanner TextSource} (h : Tracks text s) {k : Container}
    (hpending : s.cursor.pending = some k.opening) :
    text.toList[s.position.index]? = some k.opening ∧
      s.position = positionAfter (text.toList.take s.position.index) := by
  obtain ⟨hlines, ⟨hnone, -⟩ | ⟨hput, -, -⟩⟩ := h.stands.shows
  · rw [hpending] at hnone
    cases hnone
  have hitem : text.toList[s.cursor.index]?.getD endMark = k.opening :=
    Option.some.inj (hput.symm.trans hpending)
  have hchar : text.toList[s.cursor.index]? = some k.opening := by
    cases hc : text.toList[s.cursor.index]? with
    | none =>
      rw [hc, Option.getD_none] at hitem
      exact absurd hitem.symm (Container.opening_ne_endMark k)
    | some c =>
      rw [hc, Option.getD_some] at hitem
      rw [hitem]
  have hle : s.cursor.index ≤ text.toList.length :=
    Nat.le_of_lt (List.getElem?_eq_some_iff.mp hchar).1
  rw [itemsBefore_eq_take hle] at hlines
  have hlength := List.length_take_of_le hle
  refine ⟨hchar, ?_⟩
  calc s.position
      = ⟨s.cursor.index, s.cursor.lines.line, s.cursor.lines.column⟩ := rfl
    _ = positionAfter (text.toList.take s.cursor.index) := by
        rw [hlines, Lines.after_line, Lines.after_column, positionAfter, hlength]

/-- What a value opens, it opens just before the bracket in the text. -/
theorem Tracks.opening_placed {text : String} {s : Scanner TextSource} (h : Tracks text s)
    {x : Opening} (hx : x ∈ openings (.value s)) :
    text.toList[x.position.index]? = some x.container.opening ∧
      x.position = positionAfter (text.toList.take x.position.index) := by
  obtain ⟨r, hr, hopening⟩ := List.mem_filterMap.mp hx
  have hplaced : Tracks text r.scanner ∧ ∀ x, r.opening? = some x →
      x.position = r.scanner.position ∧ r.scanner.cursor.pending = some x.container.opening := by
    apply forall_readings (P := fun r : Reading TextSource => Tracks text r.scanner ∧
      ∀ x, r.opening? = some x → x.position = r.scanner.position ∧
        r.scanner.cursor.pending = some x.container.opening) _ _ r hr
    · intro r r' htracks hcall
      exact ⟨(tracking text).call hcall htracks.1, fun x hx => call_opening hcall hx⟩
    · exact ⟨h, nofun⟩
  obtain ⟨hposition, hpending⟩ := hplaced.2 x hopening
  rw [hposition]
  exact hplaced.1.placed hpending

theorem opening_placed {text : String} {o : Options} {x : Opening}
    (hx : x ∈ openings (.value (ofText text o))) :
    text.toList[x.position.index]? = some x.container.opening ∧
      x.position = positionAfter (text.toList.take x.position.index) :=
  (ofText_tracks text o).opening_placed hx

end Scanner

/-! ## Nesting -/

namespace Grammar

/-- The values of the phrase nest at most so deep. -/
def Phrase.Within (room : Nat) : Phrase → Prop
  | .value v => v.nesting ≤ room
  | .slot content => ∀ v, content = some v → v.nesting ≤ room
  | .slots contents => ∀ v, some v ∈ contents → v.nesting ≤ room
  | .member _ v => v.nesting ≤ room
  | .members ms => ∀ m ∈ ms, m.2.nesting ≤ room

theorem Derives.within {o : Options} {room : Nat} {phrase : Phrase} {w : List Char}
    (h : Derives o room phrase w) : phrase.Within room := by
  have hholds : phrase.Holds fun v => v.nesting ≤ room := by
    refine h.holds (P := fun room v => v.nesting ≤ room) ?_ ?_ ?_ ?_ ?_
    · exact fun room s => Nat.zero_le _
    · exact fun room text => (Nat.le_of_eq (Literal.nesting_value text)).trans (Nat.zero_le _)
    · exact fun room => Nat.zero_le _
    · exact fun room vs hvs => Nat.succ_le_succ (Value.nestingItems_le.mpr hvs)
    · refine fun room ms hms => Nat.succ_le_succ (Value.nestingMembers_le.mpr fun m hm => ?_)
      exact hms m (mem_of_objectMembers hm)
  cases phrase <;> exact hholds

end Grammar

theorem parse_nesting {text : String} {o : Options} {v : Value} (h : parse text o = .ok v) :
    v.nesting ≤ o.maxDepth := by
  rw [parse, Scanner.document_ofText] at h
  obtain ⟨b, body, b', -, -, hbody, -⟩ :=
    Scanner.document_sound (Scanner.at_start text o) (Prod.ext h rfl)
  exact hbody.within

open Scanner Scanner.Reading in
/-- **The depth limit is exact, and otherwise not noticed.** Take the containers that a run under a
limit `d'` opens, and a limit `d` that is no higher. If none of them is opened with `d` others open,
the run under `d` has the same result. Otherwise it fails at the first one that is, with the position
just before that container's bracket. A value that is returned under `d` nests no deeper than `d`. -/
theorem parse_maxDepth (text : String) (o : Options) {d d' : Nat} (h : d ≤ d') :
    let opened := openings (.value (ofText text { o with maxDepth := d' }))
    let result := parse text { o with maxDepth := d }
    ((∀ x ∈ opened, x.depth ≠ d) → result = parse text { o with maxDepth := d' }) ∧
      (∀ x, (opened.find? fun x => x.depth = d) = some x →
        result = .error (.faulty (.tooDeep x.container) x.position) ∧
          text.toList[x.position.index]? = some x.container.opening ∧
          x.position = positionAfter (text.toList.take x.position.index)) ∧
      ∀ v, result = .ok v → v.nesting ≤ d := by
  intro opened result
  have hstricter : Stricter { o with maxDepth := d' } { o with maxDepth := d } := ⟨h, rfl, id⟩
  have hstart : Framed { o with maxDepth := d' } { o with maxDepth := d } 0
      (ofText text { o with maxDepth := d' }) (ofText text { o with maxDepth := d }) :=
    ⟨rfl, rfl, rfl⟩
  have hstrict := document_strict hstricter hstart
  have hfirst := firstRefusal_maxDepth (o := o) (d := d)
    (r := .value (ofText text { o with maxDepth := d' })) rfl
  rw [hfirst, find_openings (Nat.zero_le d)] at hstrict
  refine ⟨?_, ?_, fun v hv => parse_nesting hv⟩
  · intro hnone
    have hfind : (opened.find? fun x => x.depth = d) = none := by simpa using hnone
    rw [hfind] at hstrict
    cases hstrict with
    | alike _ hagree => exact hagree.1.symm
    | stopped hsome _ => cases hsome
  · intro x hfind
    rw [hfind] at hstrict
    cases hstrict with
    | alike hnone _ => cases hnone
    | stopped hsome hfail =>
      cases hsome
      exact ⟨hfail, opening_placed (List.mem_of_find?_eq_some hfind)⟩

/-- Two arrays, one in the other: with a limit of one the inner bracket is refused. -/
theorem parse_maxDepth_one :
    1 ≤ 2 ∧ parse "[[x]]" { maxDepth := 2 } = .ok (.array [.array [.text "x"]]) ∧
      ∃ p, parse "[[x]]" { maxDepth := 1 } = .error (.faulty (.tooDeep .array) p) := by
  have hle : 1 ≤ 2 := by decide
  have hliteral : Unquoted ['x'] :=
    ⟨⟨'x', rfl, by decide⟩, ⟨'x', rfl, by decide⟩, List.forall_mem_singleton.mpr (by decide)⟩
  have hx : Derives { maxDepth := 2 } 0 (.slots [some (.text "x")]) ['x'] :=
    .lastSlot (.fullSlot (.literal hliteral))
  have hinner : Derives { maxDepth := 2 } 1 (.slots [some (.array [.text "x"])]) ['[', 'x', ']'] :=
    .lastSlot (.fullSlot (.array .nil hx .nil))
  have hdocument : Document { maxDepth := 2 } ['[', '[', 'x', ']', ']']
      (.array [.array [.text "x"]]) := ⟨[], _, [], rfl, .nil, .array .nil hinner .nil, .nil⟩
  have htwo : parse "[[x]]" { maxDepth := 2 } = .ok (.array [.array [.text "x"]]) :=
    (parse_eq_ok_iff "[[x]]" { maxDepth := 2 } rfl _).mpr hdocument
  obtain ⟨hsame, hdeeper, hnesting⟩ := parse_maxDepth "[[x]]" {} hle
  refine ⟨hle, htwo, ?_⟩
  cases hfind : (Scanner.Reading.openings (.value (Scanner.ofText "[[x]]"
      { maxDepth := 2 }))).find? fun x => x.depth = 1 with
  | none =>
    -- then the limit would not matter, but the value nests too deep for it
    have hone := (hsame (by simpa using hfind)).trans htwo
    exact absurd (hnesting _ hone) (by decide)
  | some x =>
    obtain ⟨hfail, hbracket, -⟩ := hdeeper x hfind
    have hmem := List.mem_of_getElem? hbracket
    cases hk : x.container with
    | object =>
      rw [hk] at hmem
      exact absurd hmem (by decide)
    | array => exact ⟨x.position, hk ▸ hfail⟩

end LaxJson
