import LaxJson.Proofs.Scanner.Advance
import LaxJson.Proofs.Scanner.Offers
import LaxJson.Proofs.Source.Unfailing

/-!
# LaxJson.Proofs.Scanner.Taking

Taking a number of characters, in any state that requests lead to over a source that does not fail.

* `TakesExactly`: so many characters are answered and consumed, or too few are left, and these are
  consumed with the end mark.
* `takesExactly_iff`: taking is like that up to the capacity of a string. Beyond it the request is
  turned down before a character is read.
* `run_take`: so it is after any requests.
-/

namespace LaxJson

open CharSource (Gives Unfailing)

namespace Scanner

variable {σ : Type} [CharSource σ] {s : Scanner σ} {u w : List Char} {n : Nat}

/-- How taking `n` characters goes when `u` is left before the end. -/
structure TakesExactly (u : List Char) (n : Nat) (s : Scanner σ) : Prop where
  /-- The first `n` of `u` are answered and consumed, and the others are still to come. -/
  enough : n ≤ u.length →
    s.take n = (.ok (String.ofList (u.take n)), s.nextTimes n) ∧
      (s.nextTimes n).position.index = s.position.index + n ∧
      Offers (u.drop n ++ [endMark]) (s.nextTimes n)
  /-- There are not so many. All of `u` is consumed, and the end mark. -/
  short : u.length < n →
    (∃ fault : Fault, fault.message = "substring bounds error" ∧
        s.take n = (s.nextTimes (u.length + 1)).fail fault) ∧
      (s.nextTimes (u.length + 1)).position.index = s.position.index + u.length + 1 ∧
      (s.nextTimes (u.length + 1)).atEnd = true

/-- Every character that is offered moves the index by one. -/
theorem index_nextTimes (h : Offers w s) :
    (s.nextTimes w.length).position.index = s.position.index + w.length := by
  induction w generalizing s with
  | nil => rfl
  | cons c w ih =>
    have hnext : s.next.2.position.index = s.position.index + 1 := index_next h.next
    rw [List.length_cons, nextTimes, ih h.2, hnext]
    omega

theorem takesExactly_of_offers (hn : n ≤ capacity) (hmark : endMark ∉ u)
    (h : Offers (u ++ [endMark]) s) : TakesExactly u n s where
  enough := by
    intro hle
    have hlength : (u.take n).length = n := List.length_take_of_le hle
    rw [← List.take_append_drop n u, List.append_assoc] at h
    obtain ⟨htaken, hrest⟩ := offers_append.mp h
    have htake := takeFrom_offered [] (fun hmem => hmark (List.mem_of_mem_take hmem)) htaken
    have hindex := index_nextTimes htaken
    rw [hlength] at htake hindex hrest
    rw [take_of_le hn]
    exact ⟨htake, hindex, hrest⟩
  short := by
    intro hlt
    have hindex := index_nextTimes h
    rw [List.length_append, List.length_singleton] at hindex
    refine ⟨⟨.textTooShort, rfl, ?_⟩, hindex, ?_⟩
    · rw [take_of_le hn]
      exact takeFrom_ended [] hlt hmark h
    · -- the last character read is the end mark
      obtain ⟨-, hend⟩ := offers_append.mp h
      rw [nextTimes_add]
      exact (next_handed hend.next).atEnd

/-- Taking goes on as it should up to the capacity of a string, and no further. -/
theorem takesExactly_iff (hmark : endMark ∉ u) (h : Offers (u ++ [endMark]) s) :
    TakesExactly u n s ↔ n ≤ capacity := by
  refine ⟨fun htakes => Nat.le_of_not_lt fun hn => ?_,
    fun hn => takesExactly_of_offers hn hmark h⟩
  have hfull := take_of_lt hn s
  rcases Nat.lt_or_ge u.length n with hlt | hle
  · obtain ⟨⟨fault, -, htake⟩, -⟩ := htakes.short hlt
    rw [hfull] at htake
    cases htake
  · obtain ⟨htake, -⟩ := htakes.enough hle
    rw [hfull] at htake
    cases htake

/-! ## After any requests -/

/-- Taking goes as `TakesExactly` says for all numbers up to the capacity of a string. For any other
the request is turned down and nothing has changed. -/
def TakesToCapacity (s : Scanner σ) : Prop :=
  ∃ cs, Gives cs s.source ∧ ∀ n, (TakesExactly (s.stream cs) n s ↔ n ≤ capacity) ∧
    (capacity < n → s.take n = (.error .oversized, s))

theorem takesToCapacity_of_unfailing [FiniteSource σ] (h : Unfailing s.source) :
    TakesToCapacity s := by
  obtain ⟨cs, hcs⟩ := h.exists_gives
  refine ⟨cs, hcs, fun n => ⟨?_, fun hn => take_of_lt hn s⟩⟩
  exact takesExactly_iff (not_mem_untilEnd _) (offers_of_gives hcs)

/-- **Taking characters is exact up to the capacity of a string.** Let any requests have been
served, over a source that does not fail. It gives some characters before it comes to its end; these
and the pushback before them, up to the first end mark, are left to the scanner. Taking a number of
them answers so many and consumes these and nothing else, or fails because there are too few, having
consumed these and the end mark. That is so of every number that a string has room for. With a
larger one nothing is read. Of a source that is not finite, as many reads are allowed as one
likes. -/
theorem run_take {source : σ} (h : Unfailing source) (o : Options) (requests : List Request) :
    (∀ [FiniteSource σ], TakesToCapacity ((ofSource source o).run requests).2) ∧
      ∀ reads, TakesToCapacity ((ofSource (MeteredSource.mk source reads) o).run requests).2 := by
  have hall {τ : Type} [CharSource τ] [FiniteSource τ] {source : τ} (h : Unfailing source) :
      TakesToCapacity ((ofSource source o).run requests).2 := by
    apply takesToCapacity_of_unfailing
    exact (invariant_source fun _ request hs => hs.perform request).run requests h
  exact ⟨hall h, fun reads => hall (MeteredSource.unfailing h)⟩

/-- A source that goes on after its end, read up to there. -/
theorem run_take_resumed :
    let source : ScriptSource := ⟨[.ok (some 'a'), .ok none, .ok (some 'b'), .ok (some 'c')]⟩
    let s := ((ofSource source {}).run [.next, .next]).2
    Unfailing source ∧ s.atEnd = true ∧ TakesToCapacity s ∧ (s.take 2).1 = .ok "bc" ∧
      (s.take 3).1 = .error (.faulty .textTooShort ⟨5, 1, 6⟩) := by
  intro source s
  have hsource : Unfailing source := by
    apply ScriptSource.unfailing
    intro a ha
    simp only [source, List.mem_cons, List.not_mem_nil, or_false] at ha
    rcases ha with rfl | rfl | rfl | rfl <;> exact ⟨_, rfl⟩
  exact ⟨hsource, by with_unfolding_all rfl, (run_take hsource {} [.next, .next]).1,
    by with_unfolding_all rfl, by with_unfolding_all rfl⟩

/-- An empty text has too few characters for any number but zero. One beyond the capacity is turned
down before that is found out. -/
theorem take_beyond_capacity :
    let n := 0x8000000000000000
    let s := ofText "" {}
    n < 2 ^ 64 ∧ Gives [] s.source ∧ s.take n = (.error .oversized, s) ∧
      ¬ TakesExactly (s.stream []) n s := by
  intro n s
  have hgives : Gives [] s.source := by with_unfolding_all rfl
  have hn : capacity < n := by decide
  refine ⟨by decide, hgives, take_of_lt hn s, fun h => ?_⟩
  have hle := (takesExactly_iff (not_mem_untilEnd _) (offers_of_gives hgives)).mp h
  exact absurd hle (Nat.not_le.mpr hn)

end Scanner

end LaxJson
