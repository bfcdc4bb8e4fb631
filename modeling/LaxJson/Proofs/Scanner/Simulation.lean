import LaxJson.Proofs.Scanner.Logic

/-!
# LaxJson.Proofs.Scanner.Simulation

Two scanners side by side, perhaps over different sources.

* `Tandem`: a relation between scanners that reading a character and putting it back keep, with the
  same answer on both sides. It is a logic for operations, so that every operation that only takes
  characters keeps it too.
* `Simulation`: one for scanners that also agree in their options and in how many containers are
  open. Then reading values does so as well: `Simulation.value` and `Simulation.document`.

Searching ahead also uses the mark of its source, of which neither says anything; it is not among
these operations.
-/

namespace LaxJson
namespace Scanner

open Operation

variable {σ τ : Type}

/-- The same answer, and scanners that correspond. -/
def Agree {α : Type} (S : Scanner σ → Scanner τ → Prop) (p : Except Failure α × Scanner σ)
    (q : Except Failure α × Scanner τ) : Prop :=
  p.1 = q.1 ∧ S p.2 q.2

theorem Agree.of_eq {α : Type} {S : Scanner σ → Scanner τ → Prop}
    {p : Except Failure α × Scanner σ} {q : Except Failure α × Scanner τ} {r : Except Failure α}
    {s : Scanner σ} (h : Agree S p q) (hp : p = (r, s)) : ∃ t, q = (r, t) ∧ S s t := by
  subst hp
  exact ⟨q.2, Prod.ext h.1.symm rfl, h.2⟩

theorem Agree.self {α : Type} {S : Scanner σ → Scanner σ → Prop} {p : Except Failure α × Scanner σ}
    {r : Except Failure α} {s : Scanner σ} (h : Agree S p p) (hp : p = (r, s)) : S s s := by
  subst hp
  exact h.2

/-- Answers that are related by `R`, or the same failure. -/
inductive Answers {α β : Type} (R : α → β → Prop) : Except Failure α → Except Failure β → Prop where
  | ok {a : α} {b : β} : R a b → Answers R (.ok a) (.ok b)
  | error (e : Failure) : Answers R (.error e) (.error e)

theorem Answers.of_eq {α : Type} {r r' : Except Failure α} (h : r = r') : Answers Eq r r' := by
  subst h
  cases r with
  | ok a => exact .ok rfl
  | error e => exact .error e

theorem Answers.eq {α : Type} {r r' : Except Failure α} (h : Answers Eq r r') : r = r' := by
  cases h with
  | ok h => rw [h]
  | error => rfl

/-- From scanners that correspond, both operations come to related answers and to scanners that
correspond. -/
def Mirrors (S : Scanner σ → Scanner τ → Prop) {α β : Type} (R : α → β → Prop)
    (p : Operation σ α) (q : Operation τ β) (s : Scanner σ) : Prop :=
  ∀ t, S s t → Answers R (p s).1 (q t).1 ∧ S (p s).2 (q t).2

theorem Mirrors.agree {S : Scanner σ → Scanner τ → Prop} {α : Type} {p : Operation σ α}
    {q : Operation τ α} {s : Scanner σ} {t : Scanner τ} (h : Mirrors S Eq p q s) (hst : S s t) :
    Agree S (p s) (q t) :=
  ⟨(h t hst).1.eq, (h t hst).2⟩

theorem Mirrors.of_agree {S : Scanner σ → Scanner τ → Prop} {α : Type} {p : Operation σ α}
    {q : Operation τ α} {s : Scanner σ} (h : ∀ {t : Scanner τ}, S s t → Agree S (p s) (q t)) :
    Mirrors S Eq p q s :=
  fun _ hst => ⟨.of_eq (h hst).1, (h hst).2⟩

theorem Mirrors.andThen {S : Scanner σ → Scanner τ → Prop} {α α' β β' : Type} {Q : α → α' → Prop}
    {R : β → β' → Prop} {p : Operation σ α} {p' : Operation τ α'} {q : α → Operation σ β}
    {q' : α' → Operation τ β'} {s : Scanner σ} (h : Mirrors S Q p p' s)
    (hrest : ∀ a a' s1, p s = (.ok a, s1) → Q a a' → Mirrors S R (q a) (q' a') s1) :
    Mirrors S R (p.andThen q) (p'.andThen q') s := by
  intro t hst
  obtain ⟨hanswer, hst1⟩ := h t hst
  rcases hp : p s with ⟨r, s1⟩
  rcases hp' : p' t with ⟨r', t1⟩
  rw [hp, hp'] at hanswer hst1
  cases hanswer with
  | ok hQ =>
    rw [andThen_ok hp, andThen_ok hp']
    exact hrest _ _ s1 hp hQ t1 hst1
  | error e =>
    rw [andThen_error hp, andThen_error hp']
    exact ⟨.error e, hst1⟩

/-- Scanners that stand at the same position find the same fault there. -/
theorem Mirrors.fault {S : Scanner σ → Scanner τ → Prop} {α β : Type} {R : α → β → Prop}
    (hposition : ∀ {s t}, S s t → s.position = t.position) (f : Fault) (s : Scanner σ) :
    Mirrors S R (fault f) (fault f) s := by
  intro t hst
  simp only [Operation.fault, Scanner.fail, Scanner.faultHere, hposition hst]
  exact ⟨.error _, hst⟩

/-- Scanners that always agree in their position, their options and in how many containers are
open, and go on doing so in a further container. -/
structure Nesting (S : Scanner σ → Scanner τ → Prop) : Prop where
  position : ∀ {s t}, S s t → s.position = t.position
  options : ∀ {s t}, S s t → s.options = t.options
  depth : ∀ {s t}, S s t → s.depth = t.depth
  atDepth : ∀ {s t} (d : Nat), S s t → S { s with depth := d } { t with depth := d }

namespace Nesting

variable {S : Scanner σ → Scanner τ → Prop} {s : Scanner σ} {t : Scanner τ}

theorem enter (h : Nesting S) (hst : S s t) : S s.enter t.enter := by
  simp only [Scanner.enter, h.depth hst]
  exact h.atDepth _ hst

theorem leave (h : Nesting S) (hst : S s t) : S s.leave t.leave := by
  simp only [Scanner.leave, h.depth hst]
  exact h.atDepth _ hst

theorem full (h : Nesting S) (hst : S s t) : s.full = t.full := by
  simp only [Scanner.full, h.options hst, h.depth hst]

theorem mirrors_nested (h : Nesting S) {α β : Type} {R : α → β → Prop} {p : Operation σ α}
    {p' : Operation τ β} (k : Container) (hinside : Mirrors S R p p' s.enter) :
    Mirrors S R (nested k p) (nested k p') s := by
  intro t hst
  obtain ⟨hanswer, hst1⟩ := hinside t.enter (h.enter hst)
  unfold Operation.nested
  rw [h.full hst]
  split
  · exact Mirrors.fault h.position _ s t hst
  · exact ⟨hanswer, h.leave hst1⟩

theorem mirrors_adding (h : Nesting S) {α β : Type} {R : α → β → Prop} {ms : Members Value}
    {key : String} {p : (Value → Members Value) → Operation σ α}
    {p' : (Value → Members Value) → Operation τ β}
    (hrest : ∀ add, Mirrors S R (p add) (p' add) s) :
    Mirrors S R (adding ms key p) (adding ms key p') s := by
  intro t hst
  unfold Operation.adding
  rw [h.options hst]
  split
  · exact Mirrors.fault h.position _ s t hst
  · exact hrest _ t hst

end Nesting

/-- Two scanners in the same state, over sources that correspond. -/
structure Lockstep (R : σ → τ → Prop) (s : Scanner σ) (t : Scanner τ) : Prop where
  source : R s.source t.source
  cursor : s.cursor = t.cursor
  options : s.options = t.options
  depth : s.depth = t.depth

theorem Lockstep.withSource {R : σ → τ → Prop} {s : Scanner σ} {t : Scanner τ} (h : Lockstep R s t)
    {source : σ} {source' : τ} (hsource : R source source') :
    Lockstep R { s with source := source } { t with source := source' } :=
  ⟨hsource, h.cursor, h.options, h.depth⟩

variable [CharSource σ] [CharSource τ]

/-- Two scanners on which reading a character and putting it back do the same. -/
structure Tandem (S : Scanner σ → Scanner τ → Prop) : Prop where
  position : ∀ {s t}, S s t → s.position = t.position
  atEnd : ∀ {s t}, S s t → s.atEnd = t.atEnd
  next : ∀ {s t}, S s t → Agree S s.next t.next
  stepBack : ∀ {s t}, S s t → Agree S s.stepBack t.stepBack

namespace Tandem

variable {S : Scanner σ → Scanner τ → Prop} {s : Scanner σ} {t : Scanner τ}

theorem fail {α : Type} (h : Tandem S) (hst : S s t) (fault : Fault) :
    Agree S (s.fail fault : Except Failure α × Scanner σ) (t.fail fault) :=
  ⟨by simp only [Scanner.fail, faultHere, h.position hst], hst⟩

/-- Scanners in tandem as a logic. -/
def logic (h : Tandem S) : Logic σ τ where
  Holds R p q s := Mirrors S R p q s
  Ready _ := True
  ready _ := trivial
  answer hR _ hst := ⟨.ok hR, hst⟩
  fault _ := Mirrors.fault h.position _ _
  andThen := Mirrors.andThen
  next _ := Mirrors.of_agree h.next
  stepBack _ := Mirrors.of_agree h.stepBack

theorem agree (h : Tandem S) {α : Type} {p : Operation σ α} {q : Operation τ α}
    (hp : h.logic.Holds Eq p q s) (hst : S s t) : Agree S (p s) (q t) :=
  Mirrors.agree hp hst

theorem take (h : Tandem S) (hst : S s t) (n : Nat) : Agree S (s.take n) (t.take n) := by
  by_cases hn : n ≤ capacity
  · exact h.agree (h.logic.take trivial hn) hst
  · rw [Scanner.take, Scanner.take, if_pos (Nat.not_le.mp hn), if_pos (Nat.not_le.mp hn)]
    exact ⟨rfl, hst⟩

variable [FiniteSource σ] [FiniteSource τ]

theorem nextSolid (h : Tandem S) (hst : S s t) : Agree S s.nextSolid t.nextSolid :=
  h.agree (h.logic.nextSolid trivial) hst

theorem quoted (h : Tandem S) (hst : S s t) (quote : Char) :
    Agree S (s.quoted quote) (t.quoted quote) :=
  h.agree (h.logic.quoted trivial quote) hst

theorem bare (h : Tandem S) (hst : S s t) : Agree S s.bare t.bare :=
  h.agree (h.logic.bare trivial) hst

theorem opening (h : Tandem S) (hst : S s t) (k : Container) :
    Agree S (s.opening k) (t.opening k) := by
  have hsteps : Mirrors S Eq (fun s => s.opening k) (fun t => t.opening k) s := by
    rw [opening_steps, opening_steps]
    refine h.logic.andThen_eq (h.logic.nextSolid trivial) ?_
    intro c s1 _
    split
    · exact h.logic.answer rfl
    · exact Mirrors.fault h.position _ s1
  exact hsteps.agree hst

theorem closes (h : Tandem S) (hst : S s t) (k : Container) : Agree S (s.closes k) (t.closes k) :=
  h.agree (h.logic.closes trivial k) hst

theorem separator (h : Tandem S) (hst : S s t) (k : Container) :
    Agree S (s.separator k) (t.separator k) :=
  h.agree (h.logic.separator trivial k) hst

theorem nextKey (h : Tandem S) (hst : S s t) : Agree S s.nextKey t.nextKey :=
  h.agree (h.logic.nextKey trivial) hst

theorem colon (h : Tandem S) (hst : S s t) : Agree S s.colon t.colon :=
  h.agree (h.logic.colon trivial) hst

theorem emptySlot (h : Tandem S) (hst : S s t) : Agree S s.emptySlot t.emptySlot :=
  h.agree (h.logic.emptySlot trivial) hst

end Tandem

/-- Scanners in tandem that also have the same options and as many open containers. -/
structure Simulation (S : Scanner σ → Scanner τ → Prop) : Prop extends Tandem S, Nesting S

namespace Simulation

variable {S : Scanner σ → Scanner τ → Prop} {s : Scanner σ} {t : Scanner τ}

/-- Scanners that simulate each other as a logic. -/
def valueLogic (h : Simulation S) : ValueLogic σ τ :=
  Logic.valueLogic h.logic h.mirrors_nested h.mirrors_adding

variable [FiniteSource σ] [FiniteSource τ]

theorem value (h : Simulation S) (hst : S s t) : Agree S s.value t.value :=
  h.agree (h.valueLogic.value trivial) hst

theorem document (h : Simulation S) (hst : S s t) : Agree S s.document t.document :=
  h.agree (h.valueLogic.document trivial) hst

end Simulation

/-! ## Corresponding sources -/

theorem next_lockstep {R : σ → τ → Prop}
    (hread : ∀ {s t}, R s t → (CharSource.read s).1 = (CharSource.read t).1 ∧
      R (CharSource.read s).2 (CharSource.read t).2)
    {s : Scanner σ} {t : Scanner τ} (h : Lockstep R s t) : Agree (Lockstep R) s.next t.next := by
  obtain ⟨source, cursor, options, depth⟩ := s
  obtain ⟨source', cursor', options', depth'⟩ := t
  obtain ⟨hsource, rfl, rfl, rfl⟩ := h
  obtain ⟨hanswer, hrest⟩ := hread hsource
  simp only [Scanner.next]
  cases cursor.pending with
  | some c => exact ⟨rfl, hsource, rfl, rfl, rfl⟩
  | none =>
    rcases hs : CharSource.read source with ⟨_ | answer, rest⟩ <;>
      rcases ht : CharSource.read source' with ⟨_ | answer', rest'⟩ <;>
      rw [hs, ht] at hanswer hrest <;> cases hanswer <;> exact ⟨rfl, hrest, rfl, rfl, rfl⟩

/-- Sources whose reads give the same answers have scanners that simulate each other. -/
theorem Simulation.ofSources {R : σ → τ → Prop}
    (hread : ∀ {s t}, R s t → (CharSource.read s).1 = (CharSource.read t).1 ∧
      R (CharSource.read s).2 (CharSource.read t).2) : Simulation (Lockstep R) where
  position h := by simp only [Scanner.position, h.cursor]
  atEnd h := by simp only [Scanner.atEnd, h.cursor]
  options h := h.options
  depth h := h.depth
  atDepth _ h := ⟨h.source, h.cursor, h.options, rfl⟩
  next h := next_lockstep hread h
  stepBack := by
    rintro ⟨source, cursor, options, depth⟩ t ⟨hsource, rfl, rfl, rfl⟩
    rw [stepBack_frame t source t.options t.depth]
    refine ⟨rfl, ?_⟩
    rw [stepBack_snd t]
    exact ⟨hsource, rfl, rfl, rfl⟩

end Scanner

end LaxJson
