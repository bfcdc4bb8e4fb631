import LaxJson.Proofs.Scanner.Within

/-!
# LaxJson.Proofs.Scanner.Footprint

An operation depends on nothing but what it takes. Two texts may have the same items on a stretch,
at places that differ by a fixed distance; a scanner within the stretch of the one is `Joint` with a
scanner that stands likewise in the stretch of the other.

* `footprint`: what succeeds within the stretch of the one text succeeds alike in the other. This is
  a logic for operations, so that it holds of every one of them.
* `Joint.value`: in particular of reading a value.
-/

namespace LaxJson
namespace Scanner

open Operation

/-! ## How much is taken -/

theorem next_taken {σ : Type} [CharSource σ] {s s' : Scanner σ} {c : Char}
    (h : s.next = (.ok c, s')) :
    s'.cursor.taken = s.cursor.index + 1 := by
  rw [(next_handed h).taken, next_ok h]
  rfl

/-! ## Two texts -/

/-- The first `n` items of `x` are those of `y` from the place `m` on. -/
def Overlaps (x y : String) (m n : Nat) : Prop := ∀ j < n, item y (j + m) = item x j

/-- Two scanners in the same state, except that one stands `m` places further on in its text. -/
structure Joint (x y : String) (m : Nat) (s t : Scanner TextSource) : Prop where
  left : Tracks x s
  right : Tracks y t
  index : t.cursor.index = s.cursor.index + m
  pending : t.cursor.pending.isSome = s.cursor.pending.isSome
  options : t.options = s.options
  depth : t.depth = s.depth

variable {x y : String} {m n : Nat} {s s1 t : Scanner TextSource} {α β α' β' : Type}

theorem Joint.next {c : Char} (h : Joint x y m s t) (hxy : Overlaps x y m n)
    (hn : s.next = (.ok c, s1)) (htaken : s1.cursor.taken ≤ n) :
    ∃ t1, t.next = (.ok c, t1) ∧ Joint x y m s1 t1 := by
  obtain ⟨hc, hleft, hindex, -⟩ := next_tracks h.left
  obtain ⟨hc', hright, hindex', -⟩ := next_tracks h.right
  rw [next_taken hn] at htaken
  have hframe := next_frame s
  have hframe' := next_frame t
  rw [hn] at hc hleft hindex hframe
  rw [h.index, hxy _ htaken, ← hc] at hc'
  have hnext : t.next = (.ok c, t.next.2) := Prod.ext hc' rfl
  refine ⟨t.next.2, hnext, hleft, hright, ?_, ?_, ?_, ?_⟩
  · rw [hindex', hindex, h.index]
    omega
  · rw [(next_handed hnext).pending, (next_handed hn).pending]
  · rw [hframe'.1, h.options, hframe.1]
  · rw [hframe'.2, h.depth, hframe.2]

theorem Joint.stepBack {c : Char} (h : Joint x y m s t) (hs : Handed c s) :
    t.stepBack = (.ok (), { t with cursor := t.cursor.stepBack }) ∧
      Joint x y m { s with cursor := s.cursor.stepBack }
        { t with cursor := t.cursor.stepBack } := by
  have hindex := hs.index
  have hback : t.stepBack = (.ok (), { t with cursor := t.cursor.stepBack }) := by
    rw [Scanner.stepBack, h.pending, h.index, hs.pending, if_neg (by decide), if_neg (by omega)]
  have hleft := stepBack_tracks h.left
  have hright := stepBack_tracks h.right
  rw [hs.stepBack] at hleft
  rw [hback] at hright
  refine ⟨hback, hleft, hright, ?_, rfl, h.options, h.depth⟩
  simp only [Cursor.stepBack, h.index]
  omega

/-! ## The logic -/

/-- Where `p` succeeds from `s` and takes at most `n` items, `p'` succeeds from any scanner that is
joint with `s`, with an answer that corresponds. -/
def Carries (x y : String) (m n : Nat) (R : α → β → Prop) (p : Operation TextSource α)
    (p' : Operation TextSource β) (s : Scanner TextSource) : Prop :=
  ∀ a s1, p s = (.ok a, s1) → s.cursor.taken ≤ s1.cursor.taken ∧ (∃ b, R a b) ∧
    ∀ t, s1.cursor.taken ≤ n → Joint x y m s t →
      ∃ b t1, p' t = (.ok b, t1) ∧ R a b ∧ Joint x y m s1 t1

theorem Carries.andThen {Q : α → α' → Prop} {R : β → β' → Prop} {p : Operation TextSource α}
    {p' : Operation TextSource α'} {q : α → Operation TextSource β}
    {q' : α' → Operation TextSource β'} (h : Carries x y m n Q p p' s)
    (hrest : ∀ a a' s1, p s = (.ok a, s1) → Q a a' → Carries x y m n R (q a) (q' a') s1) :
    Carries x y m n R (p.andThen q) (p'.andThen q') s := by
  intro b s2 hb
  rcases hp : p s with ⟨e | a, s1⟩
  · rw [andThen_error hp] at hb
    cases hb
  rw [andThen_ok hp] at hb
  obtain ⟨htaken, ⟨a', ha'⟩, hcarried⟩ := h a s1 hp
  obtain ⟨htaken', hanswer, -⟩ := hrest a a' s1 hp ha' b s2 hb
  refine ⟨Nat.le_trans htaken htaken', hanswer, ?_⟩
  intro t hn hst
  obtain ⟨a', t1, hp', ha', hst1⟩ := hcarried t (Nat.le_trans htaken' hn) hst
  rw [andThen_ok hp']
  exact (hrest a a' s1 hp ha' b s2 hb).2.2 t1 hn hst1

theorem Carries.nested {R : α → β → Prop} {p : Operation TextSource α}
    {p' : Operation TextSource β} (k : Container) (h : Carries x y m n R p p' s.enter) :
    Carries x y m n R (nested k p) (nested k p') s := by
  intro a s2 ha
  unfold Operation.nested at ha ⊢
  split at ha
  · cases ha
  rename_i hfull
  obtain ⟨hp, rfl⟩ := Prod.mk.inj ha
  obtain ⟨htaken, hanswer, hcarried⟩ := h a _ (Prod.ext hp rfl)
  refine ⟨htaken, hanswer, ?_⟩
  intro t hn hst
  have henter : Joint x y m s.enter t.enter :=
    ⟨⟨hst.left.source, hst.left.stands⟩, ⟨hst.right.source, hst.right.stands⟩, hst.index,
      hst.pending, hst.options, congrArg Nat.succ hst.depth⟩
  obtain ⟨b, t1, hp', hab, hst1⟩ := hcarried t.enter hn henter
  have hfull' : ¬t.full = true := by
    rw [full, hst.options, hst.depth]
    exact hfull
  refine ⟨b, t1.leave, ?_, hab, ⟨hst1.left.source, hst1.left.stands⟩,
    ⟨hst1.right.source, hst1.right.stands⟩, hst1.index, hst1.pending, hst1.options,
    congrArg Nat.pred hst1.depth⟩
  rw [if_neg hfull', hp']

theorem Carries.adding {R : α → β → Prop} {ms : Members Value} {key : String}
    {p : (Value → Members Value) → Operation TextSource α}
    {p' : (Value → Members Value) → Operation TextSource β}
    (h : ∀ add, Carries x y m n R (p add) (p' add) s) :
    Carries x y m n R (adding ms key p) (adding ms key p') s := by
  intro a s1 ha
  unfold Operation.adding at ha ⊢
  split at ha
  · cases ha
  rename_i hnew
  obtain ⟨htaken, hanswer, hcarried⟩ := h _ a s1 ha
  refine ⟨htaken, hanswer, ?_⟩
  intro t hn hst
  rw [hst.options, if_neg hnew]
  exact hcarried t hn hst

/-- The logic of what happens in the first `n` items of `x`, which `y` repeats at the place `m`. -/
def footprint (hxy : Overlaps x y m n) : ValueLogic TextSource TextSource :=
  Logic.valueLogic
    { Holds := fun R p p' s => Carries x y m n R p p' s
      Ready := fun _ => True
      ready := fun _ => trivial
      answer := by
        rintro _ _ R a b s hR _ _ ⟨⟩
        exact ⟨Nat.le_refl _, ⟨b, hR⟩, fun t _ hst => ⟨b, t, rfl, hR, hst⟩⟩
      fault := fun _ _ _ h => nomatch h
      andThen := Carries.andThen
      next := by
        intro s _ c s1 hn
        refine ⟨?_, ⟨c, rfl⟩, fun t htaken hst => ?_⟩
        · rw [next_taken hn]
          exact Cursor.taken_le _
        · obtain ⟨t1, ht, hst1⟩ := hst.next hxy hn htaken
          exact ⟨c, t1, ht, rfl, hst1⟩
      stepBack := by
        intro c s hs _ s1 hb
        rw [hs.stepBack] at hb
        cases hb
        refine ⟨Nat.le_of_eq hs.taken_stepBack.symm, ⟨_, rfl⟩, fun t _ hst => ?_⟩
        obtain ⟨ht, hst1⟩ := hst.stepBack hs
        exact ⟨_, _, ht, rfl, hst1⟩ }
    Carries.nested Carries.adding

/-- A value that ends within the stretch is read alike in the other text. -/
theorem Joint.value {v : Value} (hst : Joint x y m s t) (hv : s.value = (.ok v, s1))
    (hxy : Overlaps x y m s1.cursor.taken) :
    ∃ t1, t.value = (.ok v, t1) ∧ Joint x y m s1 t1 := by
  obtain ⟨-, -, hcarried⟩ := (footprint hxy).value (s := s) trivial v s1 hv
  obtain ⟨_, t1, ht, rfl, hst1⟩ := hcarried t (Nat.le_refl _) hst
  exact ⟨t1, ht, hst1⟩

end Scanner

end LaxJson
