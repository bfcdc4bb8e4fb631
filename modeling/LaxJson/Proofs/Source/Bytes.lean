import LaxJson.Proofs.Utf8.Lossy
import LaxJson.Source.Bytes

/-!
# LaxJson.Proofs.Source.Bytes

A byte source by what it still has to hand out: `ahead`, the bytes that are buffered or will be
delivered, and `failuresAhead`, the failures that will be reported on the way.

* `gather_ok`, `gather_error`: arranging the buffer loses no byte and drops no failure.
* `Prepared.sufficient`: the bytes that are decoded from, `held`, are enough to decode one piece.
* `read_ok`: a read hands out the first character of the lossy decoding of the bytes ahead.
* `read_error`: a read that fails moves nothing, and its failure was the first one ahead.
-/

namespace LaxJson

namespace Delivery

/-- The bytes of the deliveries before the first one of no bytes, which ends the stream. -/
def delivered : List Delivery → List UInt8
  | [] => []
  | .failure _ :: rest => delivered rest
  | .bytes [] :: _ => []
  | .bytes (b :: bs) :: rest => b :: bs ++ delivered rest

/-- The failures before the end of the stream, interruptions left out. -/
def failures : List Delivery → List SourceError
  | [] => []
  | .failure e :: rest => if e.kind = .interrupted then failures rest else e :: failures rest
  | .bytes [] :: _ => []
  | .bytes (_ :: _) :: rest => failures rest

theorem failures_eq_nil {ds : List Delivery}
    (h : ∀ e, Delivery.failure e ∈ ds → e.kind = .interrupted) : failures ds = [] := by
  induction ds with
  | nil => rfl
  | cons d rest ih =>
    have hrest := ih fun e he => h e (List.mem_cons_of_mem d he)
    cases d with
    | failure e => rw [failures, if_pos (h e List.mem_cons_self), hrest]
    | bytes bs =>
      cases bs with
      | nil => rfl
      | cons b bs => exact hrest

theorem pull_error {limit : Nat} {ds ds' : List Delivery} {e : SourceError}
    (h : pull limit ds = (.error e, ds')) :
    delivered ds = delivered ds' ∧ failures ds = e :: failures ds' := by
  induction ds with
  | nil => cases h
  | cons d rest ih =>
    cases d with
    | failure e' =>
      rw [pull] at h
      rw [delivered, failures]
      by_cases hi : e'.kind = .interrupted
      · rw [if_pos hi] at h ⊢
        exact ih h
      · rw [if_neg hi] at h ⊢
        cases h
        exact ⟨rfl, rfl⟩
    | bytes bs =>
      rw [pull] at h
      split at h <;> cases h

theorem pull_nil {limit : Nat} (hlimit : 0 < limit) {ds ds' : List Delivery}
    (h : pull limit ds = (.ok [], ds')) : delivered ds = [] ∧ failures ds = [] := by
  induction ds with
  | nil => exact ⟨rfl, rfl⟩
  | cons d rest ih =>
    cases d with
    | failure e =>
      rw [pull] at h
      rw [delivered, failures]
      by_cases hi : e.kind = .interrupted
      · rw [if_pos hi] at h ⊢
        exact ih h
      · rw [if_neg hi] at h
        cases h
    | bytes bs =>
      cases bs with
      | nil => exact ⟨rfl, rfl⟩
      | cons b bs =>
        rw [pull] at h
        split at h
        · cases h
        · simp only [Prod.mk.injEq, Except.ok.injEq, List.take_eq_nil_iff] at h
          rcases h.1 with hzero | hnil
          · omega
          · cases hnil

theorem pull_cons {limit : Nat} {ds ds' : List Delivery} {b : UInt8} {bs : List UInt8}
    (h : pull limit ds = (.ok (b :: bs), ds')) :
    delivered ds = b :: bs ++ delivered ds' ∧ failures ds = failures ds' := by
  induction ds with
  | nil => cases h
  | cons d rest ih =>
    cases d with
    | failure e =>
      rw [pull] at h
      rw [delivered, failures]
      by_cases hi : e.kind = .interrupted
      · rw [if_pos hi] at h ⊢
        exact ih h
      · rw [if_neg hi] at h
        cases h
    | bytes cs =>
      rw [pull] at h
      cases cs with
      | nil =>
        rw [List.drop_nil] at h
        cases h
      | cons c cs =>
        split at h
        · cases h
          exact ⟨rfl, rfl⟩
        · rename_i left hdrop
          obtain ⟨htake, hds⟩ := Prod.mk.inj h
          rw [← hds, ← Except.ok.inj htake]
          refine ⟨?_, rfl⟩
          rw [delivered, delivered, ← List.append_assoc, ← hdrop, List.take_append_drop]

end Delivery

namespace ByteSource

/-- The bytes not decoded yet, those of later reads included. -/
def ahead (s : ByteSource) : List UInt8 :=
  s.buffer.toList.drop s.start ++ if s.exhausted then [] else Delivery.delivered s.deliveries

/-- The bytes that have been received and are not decoded. -/
def held (s : ByteSource) : List UInt8 := s.buffer.toList.drop s.start

/-- The failures that reading on will report. -/
def failuresAhead (s : ByteSource) : List SourceError :=
  if s.exhausted then [] else Delivery.failures s.deliveries

/-- Four bytes are at hand, or all that is left. -/
def Prepared (s : ByteSource) : Prop := s.exhausted = true ∨ 4 ≤ s.buffer.size - s.start

theorem open_of_unready {s : ByteSource} (h : ¬(s.exhausted = true ∨ 4 ≤ s.buffer.size)) :
    s.exhausted = false :=
  Bool.eq_false_iff.mpr fun hend => h (.inl hend)

theorem gather_ok {s s' : ByteSource} (hs : s.start = 0) (h : s.gather = (.ok (), s')) :
    s'.ahead = s.ahead ∧ s'.failuresAhead = s.failuresAhead ∧ s'.start = 0 ∧ s'.Prepared := by
  fun_induction gather s with
  | case1 s hdone =>
    cases h
    exact ⟨rfl, rfl, hs, by simpa only [Prepared, hs, Nat.sub_zero] using hdone⟩
  | case2 => cases h
  | case3 s hdone ds hp =>
    cases h
    obtain ⟨hd, hf⟩ := Delivery.pull_nil (by decide) hp
    have hopen := open_of_unready hdone
    simp only [ahead, failuresAhead, hopen, hd, hf, hs, Prepared, if_true]
    exact ⟨rfl, rfl, trivial, .inl trivial⟩
  | case4 s hdone b bs ds hp ih =>
    obtain ⟨hd, hf⟩ := Delivery.pull_cons hp
    have hopen := open_of_unready hdone
    obtain ⟨hahead, hfailures, hrest⟩ := ih hs h
    refine ⟨hahead.trans ?_, hfailures.trans ?_, hrest⟩
    · simp [ahead, hopen, hs, hd]
    · simp [failuresAhead, hopen, hf]

theorem gather_error {s s' : ByteSource} {e : SourceError} (hs : s.start = 0)
    (h : s.gather = (.error e, s')) :
    s'.ahead = s.ahead ∧ s.failuresAhead = e :: s'.failuresAhead ∧ s'.start = 0 := by
  fun_induction gather s with
  | case1 => cases h
  | case2 s hdone e' ds hp =>
    cases h
    obtain ⟨hd, hf⟩ := Delivery.pull_error hp
    have hopen := open_of_unready hdone
    simp [ahead, failuresAhead, hopen, hd, hf, hs]
  | case3 => cases h
  | case4 s hdone b bs ds hp ih =>
    obtain ⟨hd, hf⟩ := Delivery.pull_cons hp
    have hopen := open_of_unready hdone
    obtain ⟨hahead, hfailures, hstart⟩ := ih hs h
    refine ⟨hahead.trans ?_, .trans ?_ hfailures, hstart⟩
    · simp [ahead, hopen, hs, hd]
    · simp [failuresAhead, hopen, hf]

/-- The buffer without the bytes already decoded. -/
theorem ahead_compact (s : ByteSource) :
    ahead { s with buffer := s.buffer.extract s.start s.buffer.size, start := 0 } = s.ahead := by
  simp only [ahead, List.drop_zero, Array.toList_extract, List.extract_eq_take_drop]
  rw [List.take_of_length_le (by simp)]

theorem prepare_ok {s s' : ByteSource} (h : s.prepare = (.ok (), s')) :
    s'.ahead = s.ahead ∧ s'.failuresAhead = s.failuresAhead ∧ s'.Prepared := by
  unfold prepare at h
  split at h
  · obtain ⟨hahead, hfailures, -, hprepared⟩ := gather_ok rfl h
    exact ⟨hahead.trans (ahead_compact s), hfailures, hprepared⟩
  · rename_i hsize
    cases h
    exact ⟨rfl, rfl, .inr (Nat.le_of_not_lt hsize)⟩

theorem prepare_error {s s' : ByteSource} {e : SourceError} (h : s.prepare = (.error e, s')) :
    s'.ahead = s.ahead ∧ s.failuresAhead = e :: s'.failuresAhead := by
  unfold prepare at h
  split at h
  · obtain ⟨hahead, hfailures, -⟩ := gather_error rfl h
    exact ⟨hahead.trans (ahead_compact s), hfailures⟩
  · cases h

theorem length_held (s : ByteSource) : s.held.length = s.buffer.size - s.start := by
  rw [held, List.length_drop, Array.length_toList]

/-- What is decoded is decoded from enough bytes. -/
theorem Prepared.sufficient {s : ByteSource} (h : s.Prepared) :
    Utf8.Sufficient s.held s.ahead where
  first := List.prefix_append _ _
  enough := by
    rcases h with hend | hsize
    · right
      rw [ahead, if_pos hend, List.append_nil, held]
    · left
      rwa [length_held]

/-- Decoding takes a prefix of the bytes ahead, all of it from the buffer. -/
theorem ahead_skip {s : ByteSource} {n : Nat} (h : n ≤ s.held.length) :
    ahead { s with start := s.start + n } = s.ahead.drop n := by
  rw [held] at h
  simp only [ahead]
  rw [List.drop_append_of_le_length h, List.drop_drop]

theorem window_eq (s : ByteSource) :
    (s.buffer.extract s.start (s.start + 4)).toList = s.held.take 4 := by
  rw [Array.toList_extract, List.extract_eq_take_drop, Nat.add_sub_cancel_left, held]

theorem takeFirst_ended {s : ByteSource} (h : s.held = []) : s.takeFirst = (none, s) := by
  rw [takeFirst, window_eq, h]
  rfl

/-- It does not matter that no more than four of the bytes held are looked at. -/
theorem takeFirst_held {s : ByteSource} (h : s.held ≠ []) :
    s.takeFirst = (some ((Utf8.decodeFirst s.held).1.getD replacement),
      { s with start := s.start + (Utf8.decodeFirst s.held).2 }) := by
  have hfour := Utf8.decodeFirst_take_four s.held
  obtain ⟨b, bs, hheld⟩ := List.exists_cons_of_ne_nil h
  rw [hheld, List.take_succ_cons] at hfour
  rw [takeFirst, window_eq, hheld, List.take_succ_cons]
  simp only [hfour]

theorem takeFirst_eq {s : ByteSource} (h : s.Prepared) :
    s.takeFirst.1 = (Utf8.decodeLossy s.ahead).head? ∧
      Utf8.decodeLossy s.takeFirst.2.ahead = (Utf8.decodeLossy s.ahead).tail ∧
      s.takeFirst.2.failuresAhead = s.failuresAhead := by
  have hslice := h.sufficient
  by_cases hheld : s.held = []
  · rw [takeFirst_ended hheld, hslice.eq_nil_iff.mp hheld, Utf8.decodeLossy]
    exact ⟨rfl, rfl, rfl⟩
  · have hne := mt hslice.eq_nil_iff.mpr hheld
    rw [takeFirst_held hheld, Utf8.decodeLossy_eq hne, ahead_skip (Utf8.decodeFirst_le s.held),
      hslice.decodeFirst_eq]
    exact ⟨rfl, rfl, rfl⟩

/-- A read that succeeds hands out the next character of the lossy decoding. -/
theorem read_ok {s s' : ByteSource} {c : Option Char} (h : s.read = (.ok c, s')) :
    c = (Utf8.decodeLossy s.ahead).head? ∧
      Utf8.decodeLossy s'.ahead = (Utf8.decodeLossy s.ahead).tail ∧
      s'.failuresAhead = s.failuresAhead := by
  unfold read at h
  split at h
  · cases h
  · rename_i s1 hp
    obtain ⟨hahead, hfailures, hprepared⟩ := prepare_ok hp
    rw [← hahead, ← hfailures]
    cases h
    exact takeFirst_eq hprepared

/-- A read that fails has lost nothing, and reports the first failure ahead. -/
theorem read_error {s s' : ByteSource} {e : SourceError} (h : s.read = (.error e, s')) :
    s'.ahead = s.ahead ∧ s.failuresAhead = e :: s'.failuresAhead := by
  unfold read at h
  split at h
  · rename_i e' s1 hp
    cases h
    exact prepare_error hp
  · cases h

theorem ahead_ofDeliveries (ds : List Delivery) :
    (ofDeliveries ds).ahead = Delivery.delivered ds := rfl

theorem failuresAhead_ofDeliveries (ds : List Delivery) :
    (ofDeliveries ds).failuresAhead = Delivery.failures ds := rfl

end ByteSource

end LaxJson
