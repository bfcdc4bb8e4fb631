import LaxJson.Proofs.Source.Retries
import LaxJson.Proofs.Source.Text
import LaxJson.Session

/-!
# LaxJson.Proofs.Source.Slices

The indices that sources compute, into a text and into a buffer of bytes. Each function that takes
a slice or a difference has a counterpart here that has no result where an index is out of range,
or, in a text, not that of a character.

* `TextSource.Follows`: a text source is where a `Bookmark` says, which counts characters.
* `ByteSource.gather?_eq`, `ByteSource.read?_eq`: enlarging the buffer for a read, cutting off what
  the read did not fill and dropping what was decoded stay in range. The slice that is decoded is
  sufficient (`ByteSource.Prepared.sufficient`), so that any decoder that can be relied on does.
* `ByteSource.afterReads_decoded`: bytes that have been received are decoded or still held.
* `slices_in_range`: so all slices of both sources succeed, and hold what they should.
-/

namespace LaxJson

open CharSource (afterReads answers)

/-! ## Texts -/

/-- How many characters of a text have been read, and how many had been when the mark was set. -/
structure Bookmark where
  read : Nat
  marked : Option Nat

/-- What a request does to the bookmark in a text of so many characters. -/
def Bookmark.perform (length : Nat) (b : Bookmark) : SourceRequest → Bookmark
  | .read => { b with read := min (b.read + 1) length }
  | .mark _ => { b with marked := some b.read }
  | .reset => { b with read := b.marked.getD b.read }
  | .unmark => { b with marked := none }

def Bookmark.run (length : Nat) (requests : List SourceRequest) : Bookmark :=
  requests.foldl (Bookmark.perform length) ⟨0, none⟩

namespace TextSource

/-- The text from an offset on, which has to be that of a character or the end. -/
def sliceFrom? (text : String) (offset : String.Pos.Raw) : Option String :=
  if offset.IsValid text then some (offset.extract text text.rawEndPos) else none

/-- `remaining` with its slice checked. -/
def remaining? (s : TextSource) : Option String := sliceFrom? s.text s.offset

/-- `read` with its slice checked: the first character of the slice, if there is one. -/
def read? (s : TextSource) : Option (Except SourceError (Option Char) × TextSource) :=
  (sliceFrom? s.text s.offset).map fun rest =>
    match rest.toList with
    | [] => (.ok none, s)
    | c :: _ => (.ok (some c), { s with offset := s.offset + c })

theorem isValid_place (text : String) (n : Nat) : (place text n).IsValid text := by
  refine String.Pos.Raw.isValid_iff_exists_append.mpr
    ⟨String.ofList (text.toList.take n), String.ofList (text.toList.drop n), ?_, ?_⟩
  · rw [← String.ofList_append]
    exact split_at text n
  · rw [String.rawEndPos_ofList, place]

variable {text : String} {s : TextSource} {n : Nat}

theorem remaining?_place (h : s.offset = place s.text n) : s.remaining? = some s.remaining :=
  if_pos (h ▸ isValid_place s.text n)

theorem read?_place (h : s.offset = place s.text n) : s.read? = some s.read := by
  have hslice : sliceFrom? s.text s.offset = some (String.ofList (s.text.toList.drop n)) :=
    (remaining?_place h).trans (congrArg some (remaining_place h))
  rw [read?, hslice, read_place h, Option.map_some, String.toList_ofList]
  rcases Nat.lt_or_ge n s.text.toList.length with hlt | hge
  · have hc := List.getElem?_eq_getElem hlt
    rw [List.drop_eq_getElem_cons hlt, hc, h]
    simp only [place_succ hc]
  · rw [List.drop_eq_nil_of_le hge, List.getElem?_eq_none hge, place_of_length_le hge, ← h]

theorem place_min (text : String) (n : Nat) :
    place text (min n text.toList.length) = place text n := by
  rw [place, place, ← List.take_take, List.take_length]

/-- The source stands where the bookmark says, and so does its mark. -/
structure Follows (text : String) (b : Bookmark) (s : TextSource) : Prop where
  text_eq : s.text = text
  offset_eq : s.offset = place text b.read
  marked_eq : s.marked = b.marked.map (place text)

theorem Follows.perform {b : Bookmark} (h : Follows text b s) (request : SourceRequest) :
    Follows text (b.perform text.toList.length request) (CharSource.perform s request).2 := by
  obtain ⟨n, m⟩ := b
  obtain ⟨rfl, hoffset, hmarked⟩ := h
  cases request with
  | read =>
    have hread : CharSource.read s = _ := read_place hoffset
    rw [CharSource.perform_read, hread]
    exact ⟨rfl, (place_min _ _).symm, hmarked⟩
  | mark limit => exact ⟨rfl, hoffset, congrArg some hoffset⟩
  | reset =>
    have hreset : CharSource.reset s = s.reset := rfl
    rw [CharSource.perform_reset, hreset]
    cases m with
    | none =>
      have hnone : s.marked = none := hmarked
      rw [reset, hnone]
      exact ⟨rfl, hoffset, hnone⟩
    | some m =>
      rw [reset_marked hmarked]
      exact ⟨rfl, rfl, hmarked⟩
  | unmark => exact ⟨rfl, hoffset, rfl⟩

theorem run_follows (requests : List SourceRequest) {b : Bookmark} (h : Follows text b s) :
    Follows text (requests.foldl (Bookmark.perform text.toList.length) b)
      (CharSource.run s requests).2 := by
  induction requests generalizing b s with
  | nil => exact h
  | cons request rest ih => exact ih (h.perform request)

/-- The offsets are those of characters of the text or its end, so that both slices succeed, and
the one that is asked for is what has not been read. -/
structure InRange (text : String) (b : Bookmark) (s : TextSource) : Prop where
  text_eq : s.text = text
  offset : s.offset.IsValid text ∧ s.offset ≤ text.rawEndPos
  marked : ∀ offset, s.marked = some offset → offset.IsValid text ∧ offset ≤ text.rawEndPos
  read : s.read? = some s.read ∧ s.read.1 = .ok text.toList[b.read]?
  remaining : s.remaining? = some s.remaining ∧ s.remaining.toList = text.toList.drop b.read

theorem Follows.inRange {b : Bookmark} (h : Follows text b s) : InRange text b s := by
  obtain ⟨rfl, hoffset, hmarked⟩ := h
  have hvalid (n : Nat) : (place s.text n).IsValid s.text ∧ place s.text n ≤ s.text.rawEndPos :=
    ⟨isValid_place s.text n, (isValid_place s.text n).le_rawEndPos⟩
  constructor
  case text_eq => rfl
  case offset => exact hoffset ▸ hvalid b.read
  case marked =>
    intro offset h
    obtain ⟨n, -, rfl⟩ := Option.map_eq_some_iff.mp (hmarked.symm.trans h)
    exact hvalid n
  case read => exact ⟨read?_place hoffset, congrArg Prod.fst (read_place hoffset)⟩
  case remaining =>
    refine ⟨remaining?_place hoffset, ?_⟩
    rw [remaining_place hoffset, String.toList_ofList]

end TextSource

/-! ## Buffers -/

namespace Delivery

theorem length_of_pull {limit : Nat} {ds ds' : List Delivery} {bs : List UInt8}
    (h : pull limit ds = (.ok bs, ds')) : bs.length ≤ limit := by
  induction ds with
  | nil =>
    cases h
    exact Nat.zero_le _
  | cons d rest ih =>
    cases d with
    | failure e =>
      rw [pull] at h
      split at h
      · exact ih h
      · cases h
    | bytes cs =>
      rw [pull] at h
      split at h <;> cases h
      · exact List.drop_eq_nil_iff.mp ‹_›
      · exact List.length_take_le limit cs

/-- The bytes of an answer. -/
def received : Except SourceError (List UInt8) → List UInt8
  | .ok bs => bs
  | .error _ => []

/-- A read takes its bytes off the front of the deliveries. -/
theorem pull_allBytes (limit : Nat) (ds : List Delivery) :
    allBytes ds = received (pull limit ds).1 ++ allBytes (pull limit ds).2 := by
  induction ds with
  | nil => rfl
  | cons d rest ih =>
    cases d with
    | failure e =>
      rw [pull]
      split
      · exact ih
      · rfl
    | bytes bs =>
      rw [pull]
      split
      · rfl
      · rename_i b left hleft
        rw [allBytes, allBytes, received, ← List.append_assoc, ← hleft, List.take_append_drop]

end Delivery

namespace ByteSource

/-- The bytes of a buffer from an index on. -/
def sliceFrom? (buffer : Array UInt8) (n : Nat) : Option (List UInt8) :=
  if n ≤ buffer.size then some (buffer.toList.drop n) else none

/-- A buffer without its first bytes. -/
def drain? (buffer : Array UInt8) (n : Nat) : Option (Array UInt8) :=
  if n ≤ buffer.size then some (buffer.extract n buffer.size) else none

/-- A buffer with other bytes from an index on, in place of as many that were there. -/
def overwrite? (buffer : Array UInt8) (n : Nat) (bs : List UInt8) : Option (Array UInt8) :=
  if n + bs.length ≤ buffer.size then
    some (buffer.extract 0 n ++ bs.toArray ++ buffer.extract (n + bs.length) buffer.size)
  else none

/-- One read of the stream. The buffer is enlarged with zeros, and what arrives is written over
them; the rest of them is cut off again. -/
def topUp? (s : ByteSource) : Option (Except SourceError Unit × ByteSource) :=
  let enlarged := s.buffer ++ Array.replicate readSize 0
  (sliceFrom? enlarged s.buffer.size).bind fun room =>
    match Delivery.pull room.length s.deliveries with
    | (.error e, ds) =>
      some (.error e, { s with deliveries := ds, buffer := enlarged.extract 0 s.buffer.size })
    | (.ok bs, ds) => (overwrite? enlarged s.buffer.size bs).map fun filled =>
      (.ok (), { s with
        deliveries := ds
        buffer := filled.extract 0 (s.buffer.size + bs.length)
        exhausted := s.exhausted || bs.isEmpty })

/-- What such a read comes to. -/
def topUp (s : ByteSource) : Except SourceError Unit × ByteSource :=
  match Delivery.pull readSize s.deliveries with
  | (.error e, ds) => (.error e, { s with deliveries := ds })
  | (.ok bs, ds) => (.ok (), { s with
      deliveries := ds
      buffer := s.buffer ++ bs.toArray
      exhausted := s.exhausted || bs.isEmpty })

theorem topUp?_eq (s : ByteSource) : s.topUp? = some s.topUp := by
  have hroom : sliceFrom? (s.buffer ++ Array.replicate readSize 0) s.buffer.size =
      some (List.replicate readSize 0) := by
    rw [sliceFrom?, if_pos (by simp)]
    simp
  simp only [topUp?, topUp, hroom, Option.bind_some, List.length_replicate]
  rcases hp : Delivery.pull readSize s.deliveries with ⟨e | bs, ds⟩
  · simp
  · have hle := Delivery.length_of_pull hp
    have hbuffer : s.buffer.extract 0 (s.buffer.size + bs.length) = s.buffer :=
      Array.extract_eq_self_of_le (Nat.le_add_right _ _)
    simp [overwrite?, hle, hbuffer]

theorem topUp_progress {s s' : ByteSource} (h : s.topUp = (.ok (), s')) :
    s'.exhausted = true ∨ s'.exhausted = s.exhausted ∧ s.buffer.size < s'.buffer.size := by
  unfold topUp at h
  split at h <;> cases h
  rename_i bs ds hp
  cases bs with
  | nil => exact .inl (Bool.or_true _)
  | cons b bs => exact .inr ⟨Bool.or_false _, by simp⟩

/-- `gather` with checked reads. -/
def gather? (s : ByteSource) : Option (Except SourceError Unit × ByteSource) :=
  if _hdone : s.exhausted ∨ 4 ≤ s.buffer.size then
    some (.ok (), s)
  else
    match _h : s.topUp? with
    | none => none
    | some (.error e, s') => some (.error e, s')
    | some (.ok (), s') => gather? s'
termination_by if s.exhausted then 0 else 5 - s.buffer.size
decreasing_by
  rw [topUp?_eq] at _h
  obtain ⟨hopen, hsize⟩ := not_or.mp _hdone
  rw [if_neg hopen]
  rcases topUp_progress (Option.some.inj _h) with hend | ⟨hsame, hlt⟩
  · rw [if_pos hend]
    exact Nat.sub_pos_of_lt (Nat.lt_succ_of_lt (Nat.lt_of_not_le hsize))
  · rw [if_neg (hsame ▸ hopen)]
    exact Nat.sub_lt_sub_left (Nat.lt_succ_of_lt (Nat.lt_of_not_le hsize)) hlt

theorem gather?_topUp (s : ByteSource) :
    s.gather? =
      if s.exhausted ∨ 4 ≤ s.buffer.size then some (.ok (), s)
      else
        match s.topUp with
        | (.error e, s') => some (.error e, s')
        | (.ok (), s') => s'.gather? := by
  rw [gather?]
  split
  · rfl
  · split <;> rename_i h <;> rw [topUp?_eq] at h
    · cases h
    · rw [Option.some.inj h]
    · rw [Option.some.inj h]

/-- The checked reads succeed, and come to the same. -/
theorem gather?_eq (s : ByteSource) : s.gather? = some s.gather := by
  fun_induction gather s with
  | case1 s hdone => rw [gather?_topUp, if_pos hdone]
  | case2 s hdone e ds hp => rw [gather?_topUp, if_neg hdone, topUp, hp]
  | case3 s hdone ds hp =>
    rw [gather?_topUp, if_neg hdone, topUp, hp]
    simp only [List.isEmpty_nil, Bool.or_true, Array.append_empty]
    rw [gather?_topUp, if_pos (.inl rfl)]
  | case4 s hdone b bs ds hp ih =>
    rw [gather?_topUp, if_neg hdone, topUp, hp]
    simp only [List.isEmpty_cons, Bool.or_false]
    exact ih

/-- `refill` with the decoded bytes dropped only where there are so many. -/
def refill? (s : ByteSource) : Option (Except SourceError Unit × ByteSource) :=
  if 0 < s.start then
    (drain? s.buffer s.start).bind fun buffer => gather? { s with buffer := buffer, start := 0 }
  else gather? s

/-- `prepare` with its difference checked. -/
def prepare? (s : ByteSource) : Option (Except SourceError Unit × ByteSource) :=
  if s.start ≤ s.buffer.size then
    if s.buffer.size - s.start < 4 then refill? s else some (.ok (), s)
  else none

/-- `takeFirst` with its slice checked, and with any decoder. All bytes of the slice are passed to
it, and one is taken at least. -/
def takeFirst? (decode : List UInt8 → Option Char × Nat) (s : ByteSource) :
    Option (Option Char × ByteSource) :=
  (sliceFrom? s.buffer s.start).map fun held =>
    if held.isEmpty then (none, s)
    else
      let piece := decode held
      (some (piece.1.getD replacement), { s with start := s.start + max piece.2 1 })

def read? (decode : List UInt8 → Option Char × Nat) (s : ByteSource) :
    Option (Except SourceError (Option Char) × ByteSource) :=
  (prepare? s).bind fun
    | (.error e, s1) => some (.error e, s1)
    | (.ok (), s1) => (takeFirst? decode s1).map fun (c, s2) => (.ok c, s2)

theorem refill?_eq {s : ByteSource} (h : s.start ≤ s.buffer.size) : s.refill? = some s.refill := by
  rw [refill?, refill]
  split
  · rw [drain?, if_pos h, Option.bind_some, gather?_eq]
  · rename_i hstart
    obtain ⟨deliveries, buffer, start, exhausted⟩ := s
    obtain rfl : start = 0 := Nat.eq_zero_of_not_pos hstart
    rw [gather?_eq]
    simp

theorem prepare?_eq {s : ByteSource} (h : s.start ≤ s.buffer.size) :
    s.prepare? = some s.prepare := by
  rw [prepare?, if_pos h, refill?_eq h, prepare]
  split <;> rfl

/-- It does not matter which decoder is used, as long as it does what is relied on. -/
theorem takeFirst?_eq {decode : List UInt8 → Option Char × Nat} (hdecode : Utf8.FindsFirst decode)
    {s : ByteSource} (h : s.start ≤ s.buffer.size) (hprepared : s.Prepared) :
    s.takeFirst? decode = some s.takeFirst := by
  have hslice := hprepared.sufficient
  rw [takeFirst?, sliceFrom?, if_pos h, ← held, Option.map_some]
  by_cases hheld : s.held = []
  · rw [takeFirst_ended hheld, hheld]
    rfl
  · have hpos := Utf8.decodeFirst_pos_of_ne_nil hheld
    have hdecoded := hdecode.eq_decodeFirst hslice (mt hslice.eq_nil_iff.mpr hheld)
    rw [← hslice.decodeFirst_eq] at hdecoded
    rw [takeFirst_held hheld, if_neg (mt List.isEmpty_iff.mp hheld), hdecoded]
    simp only [Nat.max_eq_left hpos]

/-! ## Where the bytes go -/

/-- The bytes that are not decoded, received or not. -/
def owed (s : ByteSource) : List UInt8 := s.held ++ Delivery.allBytes s.deliveries

/-- What is received goes to the end of the buffer. -/
theorem gather_received (s : ByteSource) :
    s.gather.2.start = s.start ∧ ∃ got, s.gather.2.buffer = s.buffer ++ got.toArray ∧
      Delivery.allBytes s.deliveries = got ++ Delivery.allBytes s.gather.2.deliveries := by
  fun_induction gather s with
  | case1 s hdone => exact ⟨rfl, [], by simp, rfl⟩
  | case2 s hdone e ds hp | case3 s hdone ds hp =>
    have hbytes := Delivery.pull_allBytes readSize s.deliveries
    rw [hp] at hbytes
    exact ⟨rfl, [], by simp, hbytes⟩
  | case4 s hdone b bs ds hp ih =>
    have hbytes := Delivery.pull_allBytes readSize s.deliveries
    rw [hp] at hbytes
    obtain ⟨hstart, got, hbuffer, hrest⟩ := ih
    refine ⟨hstart, b :: bs ++ got, ?_, ?_⟩
    · rw [hbuffer]
      simp
    · rw [hbytes, hrest, Delivery.received, List.append_assoc]

theorem gather_owed {s : ByteSource} (h : s.start ≤ s.buffer.size) :
    s.gather.2.start ≤ s.gather.2.buffer.size ∧ s.gather.2.owed = s.owed := by
  obtain ⟨hstart, got, hbuffer, hbytes⟩ := gather_received s
  rw [owed, owed, held, held, hstart, hbuffer, hbytes]
  refine ⟨?_, ?_⟩
  · rw [Array.size_append]
    exact Nat.le_add_right_of_le h
  · rw [Array.toList_append, List.drop_append_of_le_length (by simpa using h), List.append_assoc]

/-- Nothing is lost by a read of the stream, also if it fails. -/
theorem prepare_owed {s : ByteSource} (h : s.start ≤ s.buffer.size) :
    s.prepare.2.start ≤ s.prepare.2.buffer.size ∧ s.prepare.2.owed = s.owed := by
  unfold prepare
  split
  · obtain ⟨hstart, howed⟩ := gather_owed (s := { s with
      buffer := s.buffer.extract s.start s.buffer.size, start := 0 }) (Nat.zero_le _)
    refine ⟨hstart, howed.trans ?_⟩
    rw [owed, owed, held, held, List.drop_zero, Array.toList_extract, List.extract_eq_take_drop,
      List.take_of_length_le (by simp)]
  · exact ⟨h, rfl⟩

theorem read?_eq {decode : List UInt8 → Option Char × Nat} (hdecode : Utf8.FindsFirst decode)
    {s : ByteSource} (h : s.start ≤ s.buffer.size) : s.read? decode = some s.read := by
  have hstart := (prepare_owed h).1
  rw [read?, prepare?_eq h, read, Option.bind_some]
  rcases hp : s.prepare with ⟨e | _, s1⟩
  · rfl
  · rw [hp] at hstart
    obtain ⟨-, -, hprepared⟩ := prepare_ok hp
    simp only [takeFirst?_eq hdecode hstart hprepared, Option.map_some]

theorem held_skip (s : ByteSource) (n : Nat) :
    held { s with start := s.start + n } = s.held.drop n := by
  rw [held, held, List.drop_drop]

/-- What an answer has taken off the bytes ahead: none of them, or the first piece. -/
def Decodes (ahead piece : List UInt8) (answer : Answer) : Prop :=
  piece = [] ∧ answer.char? = none ∨
    piece ≠ [] ∧ (Utf8.decodeFirst ahead).2 = piece.length ∧
      answer.char? = some ((Utf8.decodeFirst ahead).1.getD replacement)

theorem takeFirst_piece {s : ByteSource} (h : s.start ≤ s.buffer.size) (hprepared : s.Prepared) :
    s.takeFirst.2.start ≤ s.takeFirst.2.buffer.size ∧ ∃ piece,
      s.ahead = piece ++ s.takeFirst.2.ahead ∧ s.owed = piece ++ s.takeFirst.2.owed ∧
      Decodes s.ahead piece (.ok s.takeFirst.1) := by
  have hpiece := hprepared.sufficient.decodeFirst_eq
  by_cases hheld : s.held = []
  · rw [takeFirst_ended hheld]
    exact ⟨h, [], rfl, rfl, .inl ⟨rfl, rfl⟩⟩
  · have hpos := Utf8.decodeFirst_pos_of_ne_nil hheld
    have hle := Utf8.decodeFirst_le s.held
    rw [takeFirst_held hheld]
    rw [hpiece] at hpos hle ⊢
    have hlength : (s.held.take (Utf8.decodeFirst s.ahead).2).length =
        (Utf8.decodeFirst s.ahead).2 := List.length_take_of_le hle
    have hskip (later : List UInt8) : s.held ++ later =
        s.held.take (Utf8.decodeFirst s.ahead).2 ++
          (held { s with start := s.start + (Utf8.decodeFirst s.ahead).2 } ++ later) := by
      rw [held_skip, ← List.append_assoc, List.take_append_drop]
    refine ⟨?_, s.held.take (Utf8.decodeFirst s.ahead).2, hskip _, hskip _,
      .inr ⟨?_, hlength.symm, rfl⟩⟩
    · rw [length_held] at hle
      simp only
      omega
    · exact List.ne_nil_of_length_pos (by rw [hlength]; exact hpos)

/-- What a read does with the bytes: it decodes none of them, or the first piece of those ahead. -/
theorem read_piece {s : ByteSource} (h : s.start ≤ s.buffer.size) :
    s.read.2.start ≤ s.read.2.buffer.size ∧ ∃ piece,
      s.ahead = piece ++ s.read.2.ahead ∧ s.owed = piece ++ s.read.2.owed ∧
      Decodes s.ahead piece s.read.1 := by
  obtain ⟨hstart, howed⟩ := prepare_owed h
  rw [← howed]
  unfold read
  rcases hp : s.prepare with ⟨e | _, s1⟩
  · rw [hp] at hstart
    exact ⟨hstart, [], (prepare_error hp).1.symm, rfl, .inl ⟨rfl, rfl⟩⟩
  · rw [hp] at hstart
    obtain ⟨hahead, -, hprepared⟩ := prepare_ok hp
    rw [← hahead]
    exact takeFirst_piece hstart hprepared

/-- The pieces of any number of reads, put together, decode to what these reads answer. -/
theorem afterReads_decoded {s : ByteSource} (h : s.start ≤ s.buffer.size) (n : Nat) :
    (afterReads s n).start ≤ (afterReads s n).buffer.size ∧ ∃ decoded,
      s.ahead = decoded ++ (afterReads s n).ahead ∧ s.owed = decoded ++ (afterReads s n).owed ∧
      Utf8.decodeLossy decoded = (answers s n).filterMap Answer.char? := by
  induction n generalizing s with
  | zero => exact ⟨h, [], rfl, rfl, by rw [Utf8.decodeLossy]; rfl⟩
  | succ n ih =>
    obtain ⟨hstart, piece, hahead, howed, hpiece⟩ := read_piece h
    obtain ⟨hafter, decoded, hahead', howed', hdecoded⟩ := ih hstart
    refine ⟨hafter, piece ++ decoded, ?_, ?_, ?_⟩
    · rw [hahead, hahead', List.append_assoc]
      rfl
    · rw [howed, howed', List.append_assoc]
      rfl
    have hread : CharSource.read s = s.read := rfl
    rw [answers, hread]
    rcases hpiece with ⟨rfl, hanswer⟩ | ⟨hne, hlength, hanswer⟩
    · rw [List.filterMap_cons_none hanswer, ← hdecoded]
      rfl
    · -- the bytes decoded later, but no others, stand behind the piece
      have htake : piece ++ decoded = s.ahead.take (piece.length + decoded.length) := by
        rw [hahead, hahead', ← List.append_assoc, ← List.length_append, List.take_left]
      have hfirst : Utf8.decodeFirst (piece ++ decoded) = Utf8.decodeFirst s.ahead := by
        rw [htake, Utf8.decodeFirst_take (hlength ▸ Nat.le_add_right _ _)]
      rw [List.filterMap_cons_some hanswer, ← hdecoded,
        Utf8.decodeLossy_eq (List.append_ne_nil_of_left_ne_nil hne _), hfirst, hlength,
        List.drop_left]

/-- The bytes held are within the buffer, so that a read computes no index out of range, whichever
decoder it uses; and they are the bytes that have been received without those that `answered` is
decoded from. -/
structure InRange (ds : List Delivery) (answered : List Char) (s : ByteSource) : Prop where
  start_le : s.start ≤ s.buffer.size
  read : ∀ decode, Utf8.FindsFirst decode → s.read? decode = some s.read
  received : ∃ received decoded,
    Delivery.allBytes ds = received ++ Delivery.allBytes s.deliveries ∧
      received = decoded ++ s.buffer.toList.drop s.start ∧ Utf8.decodeLossy decoded = answered

theorem inRange_afterReads (ds : List Delivery) (n : Nat) :
    InRange ds ((answers (ofDeliveries ds) n).filterMap Answer.char?)
      (afterReads (ofDeliveries ds) n) := by
  obtain ⟨hstart, decoded, -, howed, hdecoded⟩ :=
    afterReads_decoded (s := ofDeliveries ds) (Nat.le_refl 0) n
  have hall : (ofDeliveries ds).owed = Delivery.allBytes ds := rfl
  refine ⟨hstart, fun _ hdecode => read?_eq hdecode hstart, _, decoded, ?_, rfl, hdecoded⟩
  rw [← hall, howed, owed, held, List.append_assoc]

end ByteSource

/-! ## Both sources -/

/-- **No index of a source is out of range.** After any requests to a text source the offset and the
mark are offsets of characters of the text, or of its end; so reading and asking for the rest take a
slice that is there, and the rest is what the requests have left to read. After any number of reads
of a stream of bytes, whatever it delivers, failures included, the buffer is at least as long as the
part of it that is decoded; so the next read subtracts, drops and takes slices in range, and any
decoder that can be relied on gives the same answer. The other part of the buffer is all that has
been received, without the bytes that decode to the characters answered. -/
theorem slices_in_range :
    (∀ (text : String) (requests : List SourceRequest),
      TextSource.InRange text (Bookmark.run text.toList.length requests)
        (CharSource.run (TextSource.ofText text) requests).2) ∧
    ∀ (ds : List Delivery) (n : Nat),
      ByteSource.InRange ds ((answers (ByteSource.ofDeliveries ds) n).filterMap Answer.char?)
        (afterReads (ByteSource.ofDeliveries ds) n) := by
  refine ⟨fun text requests => ?_, ByteSource.inRange_afterReads⟩
  have hstart : TextSource.Follows text ⟨0, none⟩ (TextSource.ofText text) := ⟨rfl, rfl, rfl⟩
  exact (TextSource.run_follows requests hstart).inRange

/-- A read that fails in the middle of a character keeps what has been received. -/
example :
    let s := ByteSource.ofDeliveries
      [.bytes [0x61, 0xC3], .failure ⟨.wouldBlock, "later"⟩, .bytes [0xA9]]
    ((afterReads s 1).start, (afterReads s 1).buffer) = (0, #[0x61, 0xC3]) ∧
      ((afterReads s 2).start, (afterReads s 2).buffer) = (1, #[0x61, 0xC3, 0xA9]) := by
  decide +kernel

end LaxJson
