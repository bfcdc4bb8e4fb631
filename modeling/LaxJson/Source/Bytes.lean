import LaxJson.Source
import LaxJson.Utf8
import LaxJson.Utf16

/-!
# LaxJson.Source.Bytes

A stream of bytes as a source of characters. Bytes arrive in reads of any size and are buffered;
a character is decoded once four bytes are at hand or the stream is over, since no character needs
more. A failed read keeps what is buffered, and the stream is over after a read of no bytes.
-/

namespace LaxJson

/-- What one read of a byte stream brings: some bytes, or a failure. -/
inductive Delivery where
  | bytes (bs : List UInt8)
  | failure (e : SourceError)

namespace Delivery

def size : Delivery → Nat
  | .bytes bs => bs.length
  | .failure _ => 0

/-- Bytes that a stream of deliveries still holds. -/
def total : List Delivery → Nat
  | [] => 0
  | d :: rest => d.size + total rest

/-- The bytes of a stream of deliveries, failures left out. -/
def allBytes : List Delivery → List UInt8
  | [] => []
  | .bytes bs :: rest => bs ++ allBytes rest
  | .failure _ :: rest => allBytes rest

/-- One read of at most `limit` bytes. A delivery that is longer is handed out in parts, an
interrupted read is tried again, and past the last delivery there are no bytes. -/
def pull (limit : Nat) : List Delivery → Except SourceError (List UInt8) × List Delivery
  | [] => (.ok [], [])
  | .failure e :: rest =>
    if e.kind = .interrupted then pull limit rest else (.error e, rest)
  | .bytes bs :: rest =>
    match bs.drop limit with
    | [] => (.ok bs, rest)
    | b :: left => (.ok (bs.take limit), .bytes (b :: left) :: rest)

theorem pull_total {limit : Nat} {ds ds' : List Delivery} {bs : List UInt8}
    (h : pull limit ds = (.ok bs, ds')) : bs.length + total ds' = total ds := by
  induction ds with
  | nil => cases h; rfl
  | cons d rest ih =>
    cases d with
    | failure e =>
      simp only [pull] at h
      split at h
      · simp only [total, size, ih h, Nat.zero_add]
      · cases h
    | bytes cs =>
      simp only [pull] at h
      have hsplit := congrArg List.length (List.take_append_drop limit cs)
      rw [List.length_append] at hsplit
      split at h <;> cases h
      · rfl
      · rename_i hd
        rw [hd] at hsplit
        simp only [total, size]
        omega

end Delivery

/-- The bytes of `buffer` from `start` on have arrived and are not decoded yet; `exhausted` says
that a read brought no bytes. -/
structure ByteSource where
  deliveries : List Delivery
  buffer : Array UInt8
  start : Nat
  exhausted : Bool

namespace ByteSource

/-- The size of one read. -/
def readSize : Nat := 8192

def ofDeliveries (ds : List Delivery) : ByteSource := ⟨ds, #[], 0, false⟩

/-- Reads until four bytes are buffered or the stream is over. -/
def gather (s : ByteSource) : Except SourceError Unit × ByteSource :=
  if s.exhausted ∨ 4 ≤ s.buffer.size then
    (.ok (), s)
  else
    match Delivery.pull readSize s.deliveries with
    | (.error e, ds) => (.error e, { s with deliveries := ds })
    | (.ok [], ds) => (.ok (), { s with deliveries := ds, exhausted := true })
    | (.ok (b :: bs), ds) =>
      gather { s with deliveries := ds, buffer := s.buffer ++ (b :: bs).toArray }
termination_by 4 - s.buffer.size
decreasing_by
  rename_i hsize
  simp only [Array.size_append, List.size_toArray, List.length_cons]
  omega

/-- Drops the decoded bytes, then gathers. -/
def refill (s : ByteSource) : Except SourceError Unit × ByteSource :=
  gather { s with buffer := s.buffer.extract s.start s.buffer.size, start := 0 }

/-- Takes the first character or malformed piece off the buffer. -/
def takeFirst (s : ByteSource) : Option Char × ByteSource :=
  match (s.buffer.extract s.start (s.start + 4)).toList with
  | [] => (none, s)
  | b :: bs =>
    let piece := Utf8.decodeFirst (b :: bs)
    (some (piece.1.getD replacement), { s with start := s.start + piece.2 })

/-- Leaves four bytes at hand unless the stream is over. -/
def prepare (s : ByteSource) : Except SourceError Unit × ByteSource :=
  if s.buffer.size - s.start < 4 then refill s else (.ok (), s)

def read (s : ByteSource) : Except SourceError (Option Char) × ByteSource :=
  match prepare s with
  | (.error e, s1) => (.error e, s1)
  | (.ok (), s1) =>
    match takeFirst s1 with
    | (c, s2) => (.ok c, s2)

instance : CharSource ByteSource where
  read := read

/-- Bytes that are buffered or still to be delivered. -/
def size (s : ByteSource) : Nat := (s.buffer.size - s.start) + Delivery.total s.deliveries

theorem size_gather {s s' : ByteSource} (h : s.gather = (.ok (), s')) : s'.size ≤ s.size := by
  fun_induction gather s with
  | case1 => cases h; exact Nat.le_refl _
  | case2 => cases h
  | case3 s _ ds hp =>
    cases h
    have := Delivery.pull_total hp
    simp only [List.length_nil, Nat.zero_add] at this
    simp only [size, this, Nat.le_refl]
  | case4 s _ b bs ds hp ih =>
    refine Nat.le_trans (ih h) ?_
    have := Delivery.pull_total hp
    simp only [size, Array.size_append, List.size_toArray]
    omega

theorem size_refill {s s' : ByteSource} (h : s.refill = (.ok (), s')) : s'.size ≤ s.size := by
  refine Nat.le_trans (size_gather h) ?_
  simp only [size, Array.size_extract]
  omega

theorem size_prepare {s s' : ByteSource} (h : s.prepare = (.ok (), s')) : s'.size ≤ s.size := by
  unfold prepare at h
  split at h
  · exact size_refill h
  · cases h
    exact Nat.le_refl _

theorem size_takeFirst_some {s s' : ByteSource} {c : Char} (h : s.takeFirst = (some c, s')) :
    s'.size < s.size := by
  unfold takeFirst at h
  split at h
  · cases h
  · rename_i b bs hw
    have hlen := congrArg List.length hw
    have hpos := Utf8.decodeFirst_pos b bs
    have hle := Utf8.decodeFirst_le (b :: bs)
    simp only [Prod.mk.injEq] at h
    obtain ⟨-, rfl⟩ := h
    simp only [Array.length_toList, Array.size_extract, Nat.min_def] at hlen
    simp only [size]
    split at hlen <;> omega

theorem takeFirst_none {s s' : ByteSource} (h : s.takeFirst = (none, s')) : s' = s := by
  unfold takeFirst at h
  split at h <;> cases h
  rfl

instance : FiniteSource ByteSource where
  size := size
  size_read_some := by
    intro s s' c h
    simp only [CharSource.read, read] at h
    split at h
    · cases h
    · rename_i s1 hp
      cases ht : s1.takeFirst with
      | mk c' s2 =>
        rw [ht] at h
        cases h
        exact Nat.lt_of_lt_of_le (size_takeFirst_some ht) (size_prepare hp)
  size_read_none := by
    intro s s' h
    simp only [CharSource.read, read] at h
    split at h
    · cases h
    · rename_i s1 hp
      cases ht : s1.takeFirst with
      | mk c' s2 =>
        rw [ht] at h
        cases h
        rw [takeFirst_none ht]
        exact size_prepare hp

end ByteSource

end LaxJson
