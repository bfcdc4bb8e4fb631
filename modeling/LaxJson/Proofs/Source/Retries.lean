import LaxJson.Proofs.Source.Yields
import LaxJson.Scanner.Basic

/-!
# LaxJson.Proofs.Source.Retries

Reading on after a failed read. A caller that takes every failure as a reason to try again gets what
a single decoding of all the bytes would give, and gets every failure once.

* `ByteSource.read_beyond`, `ByteSource.read_exhausted`: what stands behind the read of no bytes is
  never asked for.
* `ByteSource.answers_ahead`: the answers up to the end, sorted into characters and failures.
* `Recorder.reads_ofDeliveries`: all of it for a markable stream of bytes.
-/

namespace LaxJson

namespace Delivery

/-- The deliveries behind the first one of no bytes. -/
def beyond : List Delivery → List Delivery
  | [] => []
  | .failure _ :: rest => beyond rest
  | .bytes [] :: rest => rest
  | .bytes (_ :: _) :: rest => beyond rest

/-- A read that brings no bytes leaves what is beyond, and any other keeps it there. -/
theorem pull_beyond {limit : Nat} (hlimit : 0 < limit) {ds ds' : List Delivery}
    {answer : Except SourceError (List UInt8)} (h : pull limit ds = (answer, ds')) :
    (answer = .ok [] → ds' = beyond ds) ∧ (answer ≠ .ok [] → beyond ds' = beyond ds) := by
  induction ds with
  | nil =>
    cases h
    exact ⟨fun _ => rfl, fun _ => rfl⟩
  | cons d rest ih =>
    cases d with
    | failure e =>
      rw [pull] at h
      by_cases hi : e.kind = .interrupted
      · rw [if_pos hi] at h
        exact ih h
      · rw [if_neg hi] at h
        cases h
        exact ⟨by rintro ⟨⟩, fun _ => rfl⟩
    | bytes bs =>
      rw [pull] at h
      cases bs with
      | nil =>
        rw [List.drop_nil] at h
        cases h
        exact ⟨fun _ => rfl, fun hne => absurd rfl hne⟩
      | cons b bs =>
        obtain ⟨limit, rfl⟩ := Nat.exists_eq_succ_of_ne_zero (Nat.pos_iff_ne_zero.mp hlimit)
        split at h <;> cases h <;> exact ⟨by rintro ⟨⟩, fun _ => rfl⟩

theorem not_interrupted {ds : List Delivery} {e : SourceError} (h : e ∈ failures ds) :
    e.kind ≠ .interrupted := by
  fun_induction failures ds with
  | case1 => cases h
  | case2 e' rest hi ih => exact ih h
  | case3 e' rest hi ih =>
    rcases List.mem_cons.mp h with rfl | h
    · exact hi
    · exact ih h
  | case4 => cases h
  | case5 b bs rest ih => exact ih h

end Delivery

namespace ByteSource

/-- What is left of the deliveries once the stream is over. -/
def beyond (s : ByteSource) : List Delivery :=
  if s.exhausted then s.deliveries else Delivery.beyond s.deliveries

theorem gather_beyond (s : ByteSource) : s.gather.2.beyond = s.beyond := by
  fun_induction gather s with
  | case1 => rfl
  | case2 s hdone e ds hp =>
    have hbeyond := (Delivery.pull_beyond (by decide) hp).2 (by rintro ⟨⟩)
    simp only [beyond, open_of_unready hdone, Bool.false_eq_true, if_false]
    exact hbeyond
  | case3 s hdone ds hp =>
    have hbeyond := (Delivery.pull_beyond (by decide) hp).1 rfl
    simp only [beyond, open_of_unready hdone, Bool.false_eq_true, if_false, if_true]
    exact hbeyond
  | case4 s hdone b bs ds hp ih =>
    have hbeyond := (Delivery.pull_beyond (by decide) hp).2 (by rintro ⟨⟩)
    refine ih.trans ?_
    simp only [beyond, open_of_unready hdone, Bool.false_eq_true, if_false]
    exact hbeyond

theorem prepare_beyond (s : ByteSource) : s.prepare.2.beyond = s.beyond := by
  unfold prepare
  split
  · exact gather_beyond _
  · rfl

theorem takeFirst_beyond (s : ByteSource) : s.takeFirst.2.beyond = s.beyond := by
  unfold takeFirst
  split <;> rfl

theorem read_beyond (s : ByteSource) : s.read.2.beyond = s.beyond := by
  have hprepare := prepare_beyond s
  unfold read
  rcases hp : s.prepare with ⟨e | ⟨⟩, s1⟩
  · rw [hp] at hprepare
    exact hprepare
  · rw [hp] at hprepare
    exact (takeFirst_beyond s1).trans hprepare

theorem afterReads_beyond (s : ByteSource) (n : Nat) :
    (CharSource.afterReads s n).beyond = s.beyond := by
  induction n generalizing s with
  | zero => rfl
  | succ n ih => exact (ih s.read.2).trans (read_beyond s)

theorem gather_exhausted {s : ByteSource} (h : s.exhausted = true) : s.gather = (.ok (), s) := by
  rw [gather, if_pos (.inl h)]

theorem prepare_exhausted {s : ByteSource} (h : s.exhausted = true) (ds : List Delivery) :
    s.prepare.1 = .ok () ∧
      prepare { s with deliveries := ds } = (.ok (), { s.prepare.2 with deliveries := ds }) := by
  unfold prepare
  by_cases hsize : s.buffer.size - s.start < 4
  · simp only [if_pos hsize, refill, gather_exhausted, h, true_and]
  · simp only [if_neg hsize, true_and]

theorem takeFirst_deliveries (s : ByteSource) (ds : List Delivery) :
    takeFirst { s with deliveries := ds } =
      (s.takeFirst.1, { s.takeFirst.2 with deliveries := ds }) := by
  simp only [takeFirst]
  split <;> rfl

/-- Once the stream is over, a read does not look at the deliveries. -/
theorem read_exhausted {s : ByteSource} (h : s.exhausted = true) (ds : List Delivery) :
    read { s with deliveries := ds } = (s.read.1, { s.read.2 with deliveries := ds }) := by
  obtain ⟨hready, hprepare⟩ := prepare_exhausted h ds
  rw [read, read, hprepare, show s.prepare = (.ok (), s.prepare.2) from Prod.ext hready rfl]
  simp only [takeFirst_deliveries]

/-- The end is only answered when the stream is over and nothing is left to report. -/
theorem read_none {s s' : ByteSource} (h : s.read = (.ok none, s')) :
    s'.exhausted = true ∧ s.ahead = [] ∧ s.failuresAhead = [] := by
  unfold read at h
  split at h
  · cases h
  · rename_i s1 hp
    obtain ⟨hahead, hfailures, hprepared⟩ := prepare_ok hp
    by_cases hheld : s1.held = []
    · rw [takeFirst_ended hheld] at h
      cases h
      have hend : s'.exhausted = true := by
        refine hprepared.resolve_right fun hsize => ?_
        rw [← length_held, hheld] at hsize
        cases hsize
      refine ⟨hend, ?_, ?_⟩
      · rw [← hahead]
        exact hprepared.sufficient.eq_nil_iff.mp hheld
      · rw [← hfailures, failuresAhead, if_pos hend]
    · rw [takeFirst_held hheld] at h
      cases h

end ByteSource

/-! ## The answers to a number of reads -/

/-- What a read answers. -/
abbrev Answer := Except SourceError (Option Char)

def Answer.char? : Answer → Option Char
  | .ok c => c
  | .error _ => none

def Answer.failure? : Answer → Option SourceError
  | .ok _ => none
  | .error e => some e

namespace CharSource

/-- What the first `n` reads answer. -/
def answers {σ : Type} [CharSource σ] (s : σ) : Nat → List Answer
  | 0 => []
  | n + 1 => (read s).1 :: answers (read s).2 n

theorem afterReads_add {σ : Type} [CharSource σ] (s : σ) (m n : Nat) :
    afterReads s (m + n) = afterReads (afterReads s m) n := by
  induction m generalizing s with
  | zero => rw [Nat.zero_add, afterReads]
  | succ m ih => rw [Nat.succ_add, afterReads, ih, afterReads]

theorem mem_answers {σ : Type} [CharSource σ] (s : σ) {i n : Nat} (h : i < n) :
    (read (afterReads s i)).1 ∈ answers s n := by
  induction n generalizing s i with
  | zero => cases h
  | succ n ih =>
    cases i with
    | zero => exact List.mem_cons_self
    | succ i => exact List.mem_cons_of_mem _ (ih (read s).2 (Nat.lt_of_succ_lt_succ h))

end CharSource

namespace ByteSource

open CharSource (afterReads answers)

/-- Reads that are still to come before the end is answered. -/
def readsAhead (s : ByteSource) : Nat :=
  (Utf8.decodeLossy s.ahead).length + s.failuresAhead.length

/-- Up to the end the answers are the characters ahead and the failures ahead, each of them in
order, and none of them is the end. -/
theorem answers_ahead {n : Nat} {s : ByteSource} (h : s.readsAhead = n) :
    (answers s n).filterMap Answer.char? = Utf8.decodeLossy s.ahead ∧
      (answers s n).filterMap Answer.failure? = s.failuresAhead ∧
      (afterReads s n).readsAhead = 0 ∧
      ∀ i < n, (CharSource.read (afterReads s i)).1 ≠ .ok none := by
  induction n generalizing s with
  | zero =>
    have hchars := List.eq_nil_of_length_eq_zero (Nat.eq_zero_of_add_eq_zero_right h)
    have hfailures := List.eq_nil_of_length_eq_zero (Nat.eq_zero_of_add_eq_zero_left h)
    exact ⟨hchars.symm, hfailures.symm, h, fun i hi => absurd hi (Nat.not_lt_zero i)⟩
  | succ n ih =>
    rw [readsAhead] at h
    have hread : CharSource.read s = s.read := rfl
    simp only [answers, afterReads, hread]
    rcases hr : s.read with ⟨e | _ | c, s'⟩
    · obtain ⟨hahead, hfailures⟩ := read_error hr
      rw [hfailures, List.length_cons] at h
      obtain ⟨hchars, herrors, hend, hbefore⟩ := ih (s := s') (by rw [readsAhead, hahead]; omega)
      refine ⟨hahead ▸ hchars, ?_, hend, ?_⟩
      · rw [hfailures, ← herrors]
        rfl
      · rintro (_ | i) hi
        · rw [afterReads, hread, hr]
          rintro ⟨⟩
        · rw [afterReads, hread, hr]
          exact hbefore i (Nat.lt_of_succ_lt_succ hi)
    · obtain ⟨-, hahead, hfailures⟩ := read_none hr
      rw [hahead, hfailures, Utf8.decodeLossy] at h
      cases h
    · obtain ⟨hc, htail, hfailures⟩ := read_ok hr
      have hcons := List.eq_cons_of_mem_head? (Option.mem_def.mpr hc.symm)
      rw [hcons, List.length_cons] at h
      obtain ⟨hchars, herrors, hend, hbefore⟩ :=
        ih (s := s') (by rw [readsAhead, htail, hfailures]; omega)
      refine ⟨?_, hfailures ▸ herrors, hend, ?_⟩
      · rw [hcons, ← htail, ← hchars]
        rfl
      · rintro (_ | i) hi
        · rw [afterReads, hread, hr]
          rintro ⟨⟩
        · rw [afterReads, hread, hr]
          exact hbefore i (Nat.lt_of_succ_lt_succ hi)

/-- The end is answered from then on, and not before. -/
theorem answers_none_iff (s : ByteSource) (i : Nat) :
    (CharSource.read (afterReads s i)).1 = .ok none ↔ s.readsAhead ≤ i := by
  obtain ⟨-, -, hend, hbefore⟩ := answers_ahead (s := s) rfl
  refine ⟨fun hnone => Nat.le_of_not_lt fun hlt => hbefore i hlt hnone, fun hle => ?_⟩
  obtain ⟨k, rfl⟩ := Nat.exists_eq_add_of_le hle
  rw [CharSource.afterReads_add]
  have hchars := List.eq_nil_of_length_eq_zero (Nat.eq_zero_of_add_eq_zero_right hend)
  have hfailures := List.eq_nil_of_length_eq_zero (Nat.eq_zero_of_add_eq_zero_left hend)
  have hyields := yields_ahead hfailures
  rw [hchars] at hyields
  exact hyields k

/-- A failure that is answered is one of those ahead, and comes before the end. -/
theorem answers_error {s : ByteSource} {i : Nat} {e : SourceError}
    (h : (CharSource.read (afterReads s i)).1 = .error e) :
    i < s.readsAhead ∧ e ∈ s.failuresAhead := by
  have hlt : i < s.readsAhead := by
    refine Nat.lt_of_not_le fun hle => ?_
    rw [(answers_none_iff s i).mpr hle] at h
    cases h
  obtain ⟨-, hfailures, -⟩ := answers_ahead (s := s) rfl
  rw [← hfailures, List.mem_filterMap]
  exact ⟨hlt, .error e, h ▸ CharSource.mem_answers s hlt, rfl⟩

/-- Once the end was answered, the stream is over. -/
theorem exhausted_afterReads {s : ByteSource} {i : Nat} (h : s.readsAhead < i) :
    (afterReads s i).exhausted = true := by
  obtain ⟨k, rfl⟩ := Nat.exists_eq_add_of_lt h
  have hnone := (answers_none_iff s (s.readsAhead + k)).mpr (Nat.le_add_right _ k)
  rw [CharSource.afterReads_add]
  exact (read_none (Prod.ext hnone rfl)).1

end ByteSource

namespace Recorder

open CharSource (afterReads answers)

variable {σ : Type} [CharSource σ]

/-- A recorder that was never marked only passes reads on. -/
theorem read_ofSource (inner : σ) :
    CharSource.read (ofSource inner) =
      ((CharSource.read inner).1, ofSource (CharSource.read inner).2) := by
  simp only [ofSource, CharSource.read, read]
  rcases CharSource.read inner with ⟨_ | _ | c, inner'⟩ <;> rfl

theorem afterReads_ofSource (inner : σ) (n : Nat) :
    afterReads (ofSource inner) n = ofSource (afterReads inner n) := by
  induction n generalizing inner with
  | zero => rfl
  | succ n ih => rw [afterReads, read_ofSource, ih, afterReads]

theorem answers_ofSource (inner : σ) (n : Nat) :
    answers (ofSource inner) n = answers inner n := by
  induction n generalizing inner with
  | zero => rfl
  | succ n ih => rw [answers, read_ofSource, ih, answers]

/-- **Failed reads lose nothing.** A markable stream of bytes is read on and on, whatever it
answers. There are a number of reads, after which the end is answered for good and not before, that
answer between them the characters of the one lossy decoding of the bytes before the first read of
no bytes, each once and in order, and the failures before it except interruptions, each once and in
order; an interruption is never answered. Once the end was answered, and whenever the read of no
bytes has taken place, the deliveries behind that read are all still there, and no read depends on
them. Where a scanner over such a stream fails to get a character, that is a failure of the stream,
and all that has changed is the source. -/
theorem reads_ofDeliveries (ds : List Delivery) :
    let s := ofSource (ByteSource.ofDeliveries ds)
    ∃ (n : Nat) (chars : List Char),
      (∀ cs, Utf8.Lossy (Delivery.delivered ds) cs ↔ cs = chars) ∧
      (answers s n).filterMap Answer.char? = chars ∧
      (answers s n).filterMap Answer.failure? = Delivery.failures ds ∧
      (∀ i, (CharSource.read (afterReads s i)).1 = .ok none ↔ n ≤ i) ∧
      (∀ i e, (CharSource.read (afterReads s i)).1 = .error e → i < n ∧ e.kind ≠ .interrupted) ∧
      (∀ i, n < i → (afterReads s i).inner.exhausted = true) ∧
      (∀ i, let stream := (afterReads s i).inner
        stream.exhausted = true → stream.deliveries = Delivery.beyond ds ∧
          ∀ ds', { stream with deliveries := ds' }.read =
            (stream.read.1, { stream.read.2 with deliveries := ds' })) ∧
      ∀ (scanner : Scanner (Recorder ByteSource)) {e : Failure}, scanner.next.1 = .error e →
        (∃ cause, e = .source cause) ∧
          scanner.next.2 = { scanner with source := scanner.next.2.source } := by
  intro s
  have hreads (i : Nat) : afterReads s i = ofSource (afterReads (ByteSource.ofDeliveries ds) i) :=
    afterReads_ofSource _ i
  have hanswer (i : Nat) : (CharSource.read (afterReads s i)).1 =
      (CharSource.read (afterReads (ByteSource.ofDeliveries ds) i)).1 := by
    rw [hreads, read_ofSource]
  obtain ⟨hchars, hfailures, -⟩ := ByteSource.answers_ahead (s := .ofDeliveries ds) rfl
  rw [← answers_ofSource] at hchars hfailures
  refine ⟨_, _, Utf8.lossy_iff _, hchars, hfailures, fun i => ?_, fun i e he => ?_, fun i hi => ?_,
    fun i => ?_, fun scanner e he => ?_⟩
  · rw [hanswer, ByteSource.answers_none_iff]
  · rw [hanswer] at he
    obtain ⟨hi, hmem⟩ := ByteSource.answers_error he
    exact ⟨hi, Delivery.not_interrupted hmem⟩
  · rw [hreads]
    exact ByteSource.exhausted_afterReads hi
  · rw [hreads]
    intro stream hend
    refine ⟨?_, ByteSource.read_exhausted hend⟩
    have hbeyond := ByteSource.afterReads_beyond (.ofDeliveries ds) i
    exact (if_pos hend).symm.trans hbeyond
  · exact Scanner.next_error (Prod.ext he rfl)

/-- A failure between the two bytes of a character. -/
example :
    answers (ofSource (ByteSource.ofDeliveries [.bytes [0xC3], .failure ⟨.interrupted, ""⟩,
      .failure ⟨.wouldBlock, "later"⟩, .bytes [0xA9, 0x2C], .bytes [], .bytes [0x61]])) 4 =
    [.error ⟨.wouldBlock, "later"⟩, .ok (some '\u00e9'), .ok (some ','), .ok none] := by
  decide +kernel

end Recorder

end LaxJson
