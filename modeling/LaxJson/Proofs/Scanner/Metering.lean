import LaxJson.Proofs.Scanner.Correspondence
import LaxJson.Proofs.Scanner.Course
import LaxJson.Proofs.Source.Metered

/-!
# LaxJson.Proofs.Scanner.Metering

A meter on the source of a scanner is not noticed as long as it is not used up: with reads left over
at the end, a run goes just as it does with more reads allowed.

* `spending`: reads are used up and never given back.
* `Spared`: if an operation leaves some reads over, it does the same with more of them. This is a
  logic for operations (`sparing`).
* `run_allow`: so it is with a run of requests.
-/

namespace LaxJson
namespace Scanner

open Operation

variable {σ : Type}

/-- The scanner with so many more reads allowed. -/
def allow (extra : Nat) (s : Scanner (MeteredSource σ)) : Scanner (MeteredSource σ) :=
  { s with source := { s.source with budget := s.source.budget + extra } }

theorem stepBack_allow (extra : Nat) (s : Scanner (MeteredSource σ)) :
    (s.allow extra).stepBack = (s.stepBack.1, s.stepBack.2.allow extra) := by
  have h := stepBack_frame s (s.allow extra).source s.options s.depth
  rw [stepBack_snd s]
  exact h

variable [CharSource σ]

/-- However a run ends, no reads have been added. -/
def spending : Course (MeteredSource σ) where
  Runs s _ s' := s'.source.budget ≤ s.source.budget
  Ready _ := True
  ready _ := trivial
  refl _ := Nat.le_refl _
  fault _ _ _ := Nat.le_refl _
  trans h h' := Nat.le_trans h' h
  next := by
    rintro s -
    rcases source_of_next s with hsame | hread
    · rw [hsame]
    · rw [hread, MeteredSource.read_eq, MeteredSource.read_budget]
      exact Nat.sub_le _ _
  stepBack _ := Nat.le_refl _
  nested h := h

variable {extra : Nat} {s : Scanner (MeteredSource σ)} {α β α' β' : Type}

/-- The operation uses up reads or none, and if it leaves some, then it comes with more of them to a
related answer and to the same scanner with more reads allowed. -/
structure Spared (extra : Nat) (R : α → β → Prop) (p : Operation (MeteredSource σ) α)
    (q : Operation (MeteredSource σ) β) (s : Scanner (MeteredSource σ)) : Prop
    extends spending.Keeps R p s where
  same : (p s).2.source.budget ≠ 0 →
    Answers R (p s).1 (q (s.allow extra)).1 ∧ (q (s.allow extra)).2 = (p s).2.allow extra

theorem Spared.andThen {Q : α → α' → Prop} {R : β → β' → Prop}
    {p : Operation (MeteredSource σ) α} {p' : Operation (MeteredSource σ) α'}
    {q : α → Operation (MeteredSource σ) β} {q' : α' → Operation (MeteredSource σ) β'}
    (h : Spared extra Q p p' s)
    (hrest : ∀ a a' s1, p s = (.ok a, s1) → Q a a' → Spared extra R (q a) (q' a') s1) :
    Spared extra R (p.andThen q) (p'.andThen q') s := by
  refine ⟨h.toKeeps.andThen spending fun a a' s1 hp hQ => (hrest a a' s1 hp hQ).toKeeps, ?_⟩
  intro hleft
  obtain ⟨⟨hanswer, -⟩, hsame⟩ := h
  rcases hp : p s with ⟨e | a, s1⟩ <;> rcases hp' : p' (s.allow extra) with ⟨r', t1⟩ <;>
    rw [hp, hp'] at hsame
  · rw [andThen_error hp] at hleft ⊢
    obtain ⟨hanswers, hafter⟩ := hsame hleft
    cases hanswers
    rw [andThen_error hp']
    exact ⟨.error e, hafter⟩
  · rw [andThen_ok hp] at hleft ⊢
    -- what follows adds no reads, so that some were left before it
    obtain ⟨a₀, ha₀⟩ := hanswer a (by rw [hp])
    have hspent : (q a s1).2.source.budget ≤ s1.source.budget := (hrest a a₀ s1 hp ha₀).runs
    have hleft1 : s1.source.budget ≠ 0 := by
      intro hnone
      exact hleft (Nat.le_zero.mp (hnone ▸ hspent))
    obtain ⟨hanswers, hafter⟩ := hsame hleft1
    obtain rfl : t1 = s1.allow extra := hafter
    cases hanswers with
    | ok hQ =>
      rw [andThen_ok hp']
      exact (hrest _ _ s1 hp hQ).same hleft

theorem Spared.nested {R : α → β → Prop} {p : Operation (MeteredSource σ) α}
    {p' : Operation (MeteredSource σ) β} (k : Container) (h : Spared extra R p p' s.enter) :
    Spared extra R (Operation.nested k p) (Operation.nested k p') s := by
  refine ⟨h.toKeeps.nested spending k, ?_⟩
  unfold Operation.nested
  have hfull : (s.allow extra).full = s.full := rfl
  rw [hfull]
  split
  · exact fun _ => ⟨.error _, rfl⟩
  · intro hleft
    obtain ⟨hanswers, hafter⟩ := h.same hleft
    exact ⟨hanswers, congrArg leave hafter⟩

theorem Spared.adding {R : α → β → Prop} {ms : Members Value} {key : String}
    {p : (Value → Members Value) → Operation (MeteredSource σ) α}
    {p' : (Value → Members Value) → Operation (MeteredSource σ) β}
    (h : ∀ add, Spared extra R (p add) (p' add) s) :
    Spared extra R (Operation.adding ms key p) (Operation.adding ms key p') s := by
  refine ⟨(h _).toKeeps.adding spending, ?_⟩
  unfold Operation.adding
  have hoptions : (s.allow extra).options = s.options := rfl
  rw [hoptions]
  split
  · exact fun _ => ⟨.error _, rfl⟩
  · exact (h _).same

theorem spared_eq {p : Operation (MeteredSource σ) α}
    (hspent : (p s).2.source.budget ≤ s.source.budget)
    (hsame : (p s).2.source.budget ≠ 0 → p (s.allow extra) = ((p s).1, (p s).2.allow extra)) :
    Spared extra Eq p p s := by
  refine ⟨spending.keeps_eq hspent, fun hleft => ?_⟩
  rw [hsame hleft]
  exact ⟨.of_eq rfl, rfl⟩

theorem next_allow (hleft : s.next.2.source.budget ≠ 0) :
    (s.allow extra).next = (s.next.1, s.next.2.allow extra) := by
  obtain ⟨source, cursor, options, depth⟩ := s
  simp only [next, allow] at hleft ⊢
  cases hpending : cursor.pending with
  | some c => rfl
  | none =>
    simp only [hpending, MeteredSource.read_eq] at hleft ⊢
    have hsource : source.read.2.budget ≠ 0 := by
      rcases hread : source.read with ⟨_ | answer, source'⟩ <;> rw [hread] at hleft <;> exact hleft
    rw [MeteredSource.read_allow extra hsource]
    rcases source.read with ⟨_ | answer, source'⟩ <;> rfl

theorem Spared.eq {p q : Operation (MeteredSource σ) α} (h : Spared extra Eq p q s)
    (hleft : (p s).2.source.budget ≠ 0) : q (s.allow extra) = ((p s).1, (p s).2.allow extra) := by
  obtain ⟨hanswers, hafter⟩ := h.same hleft
  exact Prod.ext hanswers.eq.symm hafter

/-- With reads left over, more of them make no difference to an operation. -/
def sparing (extra : Nat) : ValueLogic (MeteredSource σ) (MeteredSource σ) :=
  Logic.valueLogic
    { Holds := fun R p q s => Spared extra R p q s
      Ready := fun _ => True
      ready := fun _ => trivial
      answer := fun hR => ⟨⟨fun _ ha => ⟨_, Except.ok.inj ha ▸ hR⟩, Nat.le_refl _⟩,
        fun _ => ⟨.ok hR, rfl⟩⟩
      fault := fun _ => ⟨⟨fun _ => nofun, Nat.le_refl _⟩, fun _ => ⟨.error _, rfl⟩⟩
      andThen := Spared.andThen
      next := fun _ => spared_eq (spending.next trivial) next_allow
      stepBack := fun hs => spared_eq (by rw [hs.stepBack]) fun _ => stepBack_allow extra _ }
    Spared.nested Spared.adding

/-! ## Searching -/

theorem spared_stepBack : Spared extra Eq stepBack stepBack s :=
  spared_eq (by rw [stepBack_snd]) fun _ => stepBack_allow extra s

/-- Neither a mark nor a reset reads anything. -/
theorem rewind_spared (origin : Cursor) : Spared extra Eq (rewind origin) (rewind origin) s := by
  have hreset (source : MeteredSource σ) : CharSource.reset source = source.reset := rfl
  apply spared_eq <;> simp only [rewind, hreset, MeteredSource.reset, allow] <;>
    rcases CharSource.reset s.source.inner with ⟨_ | _, inner⟩
  · exact Nat.le_refl _
  · exact Nat.le_refl _
  · exact fun _ => rfl
  · exact fun _ => rfl

theorem settle_spared (target : Char) : Spared extra Eq (settle target) (settle target) s := by
  have h : Spared extra Eq (andThen stepBack fun _ => answer target)
      (andThen stepBack fun _ => answer target)
      { s with source := CharSource.unmark s.source } :=
    (sparing extra).andThen_eq spared_stepBack fun _ _ _ => (sparing extra).answer rfl
  exact ⟨⟨h.answer, h.runs⟩, h.same⟩

theorem seekFrom_spared (target : Char) (origin : Cursor) :
    Spared extra Eq (seekFrom target origin) (seekFrom target origin) s :=
  (sparing extra).seekFrom trivial (fun _ => rewind_spared origin) fun _ _ _ => settle_spared target

theorem seek_spared (target : Char) :
    Spared extra Eq (fun s => s.seek target) (fun s => s.seek target) s := by
  have hmark (source : MeteredSource σ) : CharSource.mark source = source.mark := rfl
  rcases h : CharSource.mark s.source.inner seekLimit with ⟨_ | _, inner⟩
  · refine spared_eq ?_ fun _ => ?_
    · simp only [seek, hmark, MeteredSource.mark, h, Nat.le_refl]
    · simp only [seek, hmark, MeteredSource.mark, allow, h]
  · have hfrom : Spared extra Eq (seekFrom target s.cursor) (seekFrom target s.cursor)
        { s with source := { s.source with inner := inner } } := seekFrom_spared target s.cursor
    refine spared_eq ?_ ?_
    · simp only [seek, hmark, MeteredSource.mark, h]
      exact hfrom.runs
    · simp only [seek, hmark, MeteredSource.mark, h]
      intro hleft
      simp only [allow, h]
      exact hfrom.eq hleft

/-! ## Runs -/

theorem perform_spared (request : Request) :
    Spared extra Eq (fun s => s.perform request) (fun s => s.perform request) s := by
  refine (sparing extra).perform trivial request (fun _ => spared_stepBack)
    ((sparing extra).value trivial) seek_spared fun n hn => ?_
  refine spared_eq ?_ fun _ => ?_
  · rw [take_of_lt hn]
  · rw [take_of_lt hn, take_of_lt hn]

theorem run_spared (requests : List Request) :
    (s.run requests).2.source.budget ≤ s.source.budget ∧
      ((s.run requests).2.source.budget ≠ 0 →
        ((s.allow extra).run requests).1 = (s.run requests).1) := by
  induction requests generalizing s with
  | nil => exact ⟨Nat.le_refl _, fun _ => rfl⟩
  | cons request rest ih =>
    have hfirst : Spared extra Eq (fun s => s.perform request) (fun s => s.perform request) s :=
      perform_spared request
    obtain ⟨hspent, hsame⟩ := ih (s := (s.perform request).2)
    refine ⟨hspent.trans hfirst.runs, fun hleft => ?_⟩
    have hleft1 : (s.perform request).2.source.budget ≠ 0 := by
      intro hnone
      exact hleft (Nat.le_zero.mp (hnone ▸ hspent))
    simp only [run, hfirst.eq hleft1, hsame hleft]
    rfl

/-- **A meter that is not used up is not noticed.** If reads are left over after a run of requests,
the run goes just as it does with more reads allowed. -/
theorem run_allow (source : σ) (reads extra : Nat) (o : Options) (requests : List Request)
    (h : ((ofSource (MeteredSource.mk source reads) o).run requests).2.source.budget ≠ 0) :
    ((ofSource (MeteredSource.mk source (reads + extra)) o).run requests).1 =
      ((ofSource (MeteredSource.mk source reads) o).run requests).1 :=
  (run_spared requests).2 h

end Scanner

end LaxJson
