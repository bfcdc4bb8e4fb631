import LaxJson.Proofs.Scanner.Course
import LaxJson.Proofs.Scanner.Stricter
import LaxJson.Proofs.Value.Prune

/-!
# LaxJson.Proofs.Document.Pruning

What leaving out null members does to a document.

* `Prunes`: one input under two sets of options, of which the second drops null members and is not
  stricter about repeated keys.
* `pruning`: the two runs go in lockstep. Where keys may not repeat in the first, the second comes
  to the pruned value; where they may repeat, both fail alike.
* `dropping`: a run that drops null members comes to values without any.
* `parse_dropNulls`: the three statements for whole documents.
-/

namespace LaxJson
namespace Scanner

open Operation

variable {σ : Type} [CharSource σ]

/-- The options `o'` drop null members, which `o` keeps, and otherwise allow no less. -/
structure Prunes (o o' : Options) : Prop where
  maxDepth : o'.maxDepth = o.maxDepth
  keeps : o.dropNulls = false
  drops : o'.dropNulls = true
  uniqueKeys : o'.uniqueKeys = true → o.uniqueKeys = true

/-! ## In lockstep -/

/-- The run of `p'` under `o'` goes as that of `p` under `o` if this succeeds, and also if it fails
while keys may be repeated. -/
structure Pruned (o o' : Options) {α β : Type} (R : α → β → Prop) (p : Operation σ α)
    (p' : Operation σ β) (s : Scanner σ) : Prop where
  options : (p s).2.options = o
  ok : ∀ a, (p s).1 = .ok a →
    ∃ b, p' (s.withOptions o') = (.ok b, (p s).2.withOptions o') ∧ R a b
  error : ∀ e, (p s).1 = .error e → o.uniqueKeys = false →
    p' (s.withOptions o') = (.error e, (p s).2.withOptions o')

variable {o o' : Options} {s : Scanner σ}

omit [CharSource σ] in
/-- An operation that does not look at the options. -/
theorem Pruned.of_frame {α : Type} {p : Operation σ α} (hs : s.options = o)
    (hoptions : (p s).2.options = s.options)
    (hother : p (s.withOptions o') = ((p s).1, (p s).2.withOptions o')) :
    Pruned o o' Eq p p s where
  options := hoptions.trans hs
  ok a ha := ⟨a, hother.trans (by rw [ha]), rfl⟩
  error e he _ := hother.trans (by rw [he])

omit [CharSource σ] in
theorem Pruned.andThen {α α' β β' : Type} {Q : α → α' → Prop} {R : β → β' → Prop}
    {p : Operation σ α} {p' : Operation σ α'} {q : α → Operation σ β} {q' : α' → Operation σ β'}
    (h : Pruned o o' Q p p' s)
    (hrest : ∀ a a' s1, p s = (.ok a, s1) → Q a a' → s1.options = o →
      Pruned o o' R (q a) (q' a') s1) :
    Pruned o o' R (p.andThen q) (p'.andThen q') s := by
  obtain ⟨hoptions, hok, herror⟩ := h
  rcases hp : p s with ⟨e | a, s1⟩ <;> rw [hp] at hoptions hok herror
  · refine ⟨?_, ?_, ?_⟩ <;> rw [andThen_error hp]
    · exact hoptions
    · rintro _ ⟨⟩
    · intro e' he' hrepeat
      rw [andThen_error (herror e rfl hrepeat), ← Except.error.inj he']
  · obtain ⟨a', hp', hQ⟩ := hok a rfl
    obtain ⟨hoptions', hok', herror'⟩ := hrest a a' s1 hp hQ hoptions
    refine ⟨?_, ?_, ?_⟩ <;> rw [andThen_ok hp]
    · exact hoptions'
    · rw [andThen_ok hp']
      exact hok'
    · rw [andThen_ok hp']
      exact herror'

omit [CharSource σ] in
theorem Pruned.nested (ho : Prunes o o') {α β : Type} {R : α → β → Prop} {p : Operation σ α}
    {p' : Operation σ β} (k : Container) (hs : s.options = o) (h : Pruned o o' R p p' s.enter) :
    Pruned o o' R (Operation.nested k p) (Operation.nested k p') s := by
  have hfull : (s.withOptions o').full = s.full := by
    simp only [full, withOptions, hs, ho.maxDepth]
  obtain ⟨hoptions, hok, herror⟩ := h
  by_cases hdeep : s.full = true
  · refine ⟨?_, ?_, ?_⟩ <;> simp only [Operation.nested, hfull, hdeep, if_true]
    · exact hs
    · rintro _ ⟨⟩
    · rintro e ⟨⟩ -
      rfl
  · refine ⟨?_, ?_, ?_⟩ <;>
      simp only [Operation.nested, hfull, hdeep, Bool.false_eq_true, if_false]
    · exact hoptions
    · intro a ha
      obtain ⟨b, hb, hR⟩ := hok a ha
      have hb : p' (s.withOptions o').enter = _ := hb
      rw [hb]
      exact ⟨b, rfl, hR⟩
    · intro e he hrepeat
      have he' : p' (s.withOptions o').enter = _ := herror e he hrepeat
      rw [he']
      rfl

/-- The members so far are those of the other run, pruned, unless keys may be repeated. -/
def PrunedMembers (o : Options) (ms ms' : Members Value) : Prop :=
  o.uniqueKeys = true → ms' = Value.pruneMembers ms

def PrunedValue (o : Options) (v v' : Value) : Prop := o.uniqueKeys = true → v' = v.prune

theorem addMember_pruned (ho : Prunes o o') {ms ms' : Members Value} {key : String}
    (hms : PrunedMembers o ms ms') (hnew : o.uniqueKeys = true → ms.contains key = false)
    {v v' : Value} (hv : PrunedValue o v v') :
    PrunedMembers o (addMember o ms key v) (addMember o' ms' key v') := by
  intro hunique
  have hkept : ¬ (o.dropNulls = true ∧ v = .null) := by
    rw [ho.keeps]
    exact fun h => Bool.false_ne_true h.1
  rw [hms hunique, hv hunique, addMember_eq, addMember_eq, if_neg hkept, ho.drops,
    Value.pruneMembers_put (hnew hunique)]
  simp only [true_and, Value.prune_eq_null]

omit [CharSource σ] in
theorem Pruned.adding (ho : Prunes o o') {α β : Type} {R : α → β → Prop} {ms ms' : Members Value}
    {key : String} {p : (Value → Members Value) → Operation σ α}
    {p' : (Value → Members Value) → Operation σ β} (hs : s.options = o)
    (hms : PrunedMembers o ms ms')
    (h : ∀ add add', (∀ v v', PrunedValue o v v' → PrunedMembers o (add v) (add' v')) →
      Pruned o o' R (p add) (p' add') s) :
    Pruned o o' R (Operation.adding ms key p) (Operation.adding ms' key p') s := by
  by_cases hrefused : (o.uniqueKeys && ms.contains key) = true
  · have hunique : o.uniqueKeys = true := (Bool.and_eq_true_iff.mp hrefused).1
    refine ⟨?_, ?_, ?_⟩ <;> simp only [Operation.adding, hs, hrefused, if_true]
    · exact hs
    · rintro _ ⟨⟩
    · intro e _ hrepeat
      rw [hunique] at hrepeat
      cases hrepeat
  · have hnew : o.uniqueKeys = true → ms.contains key = false := by
      intro hunique
      rw [hunique, Bool.true_and] at hrefused
      exact Bool.eq_false_iff.mpr hrefused
    have hallowed : (o'.uniqueKeys && ms'.contains key) = false := by
      rw [Bool.and_eq_false_imp]
      intro hunique
      rw [hms (ho.uniqueKeys hunique)]
      exact Value.not_contains_pruneMembers (hnew (ho.uniqueKeys hunique))
    have hgo := h (addMember o ms key) (addMember o' ms' key) fun v v' =>
      addMember_pruned ho hms hnew
    have hleft : Operation.adding ms key p s = p (addMember o ms key) s := by
      simp only [Operation.adding, hs, hrefused, Bool.false_eq_true, if_false]
    have hright : Operation.adding ms' key p' (s.withOptions o') =
        p' (addMember o' ms' key) (s.withOptions o') := by
      have hoptions : (s.withOptions o').options = o' := rfl
      simp only [Operation.adding, hoptions, hallowed, Bool.false_eq_true, if_false]
    exact ⟨hleft ▸ hgo.options, hleft ▸ hright ▸ hgo.ok, hleft ▸ hright ▸ hgo.error⟩

/-- A run that keeps null members and one that drops them. -/
def pruning (ho : Prunes o o') : ValueLogic σ σ where
  Holds R p p' s := s.options = o → Pruned o o' R p p' s
  Ready _ := True
  ready _ := trivial
  answer hR hs := ⟨hs, fun a ha => ⟨_, rfl, Except.ok.inj ha ▸ hR⟩, nofun⟩
  fault f hs := by
    refine ⟨hs, by rintro _ ⟨⟩, ?_⟩
    rintro e ⟨⟩ -
    rfl
  andThen h hrest hs :=
    (h hs).andThen fun a a' s1 hp hQ hs1 => hrest a a' s1 hp hQ hs1
  next _ hs := .of_frame hs (next_frame _).1 (next_withOptions _ _)
  stepBack _ hs := .of_frame hs (stepBack_withOptions _ o').2.1 (stepBack_withOptions _ o').1
  Same := PrunedValue o
  SameMembers := PrunedMembers o
  text _ _ := rfl
  literal t _ := (Value.prune_of_nesting (Literal.nesting_value t)).symm
  null _ := rfl
  array h hunique := by rw [Value.prune, Value.pruneItems_of_forall₂ h hunique]
  object h hunique := by rw [Value.prune, h hunique]
  noMembers _ := rfl
  nested k h hs := .nested ho k hs (h hs)
  adding hms h hs := .adding ho hs hms fun add add' hadd => h add add' hadd hs

/-! ## Dropping null members -/

theorem noNulls_addMember {o : Options} (ho : o.dropNulls = true) {ms : Members Value}
    (hms : ∀ m ∈ ms, m.2 ≠ .null ∧ m.2.NoNulls) (key : String) {v : Value}
    (hv : v.NoNulls) : ∀ m ∈ addMember o ms key v, m.2 ≠ .null ∧ m.2.NoNulls := by
  rw [addMember_eq]
  split
  · exact hms
  · rename_i hkept
    intro m hm
    rcases Members.mem_of_put hm with rfl | hm
    · exact ⟨fun hnull => hkept ⟨ho, hnull⟩, hv⟩
    · exact hms m hm

/-- A run that drops null members. -/
def dropping : ValueLogic σ σ where
  Holds R p _ s := s.options.dropNulls = true → framing.Keeps R p s
  Ready _ := True
  ready _ := trivial
  answer hR _ := framing.logic.answer hR
  fault hf _ := framing.logic.fault hf
  andThen := by
    intro α β α' β' Q R p p' q q' s h hrest hs
    refine (h hs).andThen framing ?_
    intro a a' s1 hp hQ
    have hruns := (h hs).runs
    rw [hp] at hruns
    exact hrest a a' s1 hp hQ (congrArg Options.dropNulls hruns.1 |>.trans hs)
  next h _ := framing.logic.next h
  stepBack h _ := framing.logic.stepBack h
  Same v _ := v.NoNulls
  SameMembers ms _ := ∀ m ∈ ms, m.2 ≠ .null ∧ m.2.NoNulls
  text _ := nofun
  literal t := Value.noNulls_of_nesting (Literal.nesting_value t)
  null := nofun
  array := by
    intro vs vs' h
    refine Value.noNulls_array.mpr ?_
    intro v hv
    obtain ⟨i, hi, rfl⟩ := List.mem_iff_getElem.mp hv
    exact h.get hi (h.length_eq ▸ hi)
  object h := Value.noNulls_object.mpr h
  noMembers := nofun
  nested k h hs := (h hs).nested framing k
  adding := by
    intro α β R ms ms' key p p' s hms h hs
    have hadd := h (addMember s.options ms key) (addMember s.options ms' key) fun v _ hv =>
      noNulls_addMember hs hms key hv
    exact (hadd hs).adding framing

end Scanner

open Scanner

/-- Without the check for repeated keys the two runs succeed or fail together; with it, the run that
drops null members succeeds when the other one does. -/
theorem parse_pruned {text : String} {o o' : Options} (ho : Prunes o o') :
    (∀ v, parse text o = .ok v →
        ∃ v', parse text o' = .ok v' ∧ (o.uniqueKeys = true → v' = v.prune)) ∧
      ∀ e, parse text o = .error e → o.uniqueKeys = false → parse text o' = .error e := by
  have hpruned : Pruned o o' (PrunedValue o) document document (ofText text o) :=
    (pruning ho).document trivial rfl
  constructor
  · intro v hv
    obtain ⟨v', hv', hsame⟩ := hpruned.ok v hv
    exact ⟨v', congrArg Prod.fst hv', hsame⟩
  · intro e he hrepeat
    exact congrArg Prod.fst (hpruned.error e he hrepeat)

/-- **Dropping null members only prunes.** A text that is accepted with a check for repeated keys is
accepted without its null members, checked or not, and its value is then the pruned one. Without
the check, dropping changes neither whether a text is accepted nor, if not, the failure. And no
value read this way has a null member at any depth. -/
theorem parse_dropNulls (text : String) (d : Nat) :
    (∀ v, parse text { maxDepth := d, uniqueKeys := true } = .ok v →
        ∀ u, parse text { maxDepth := d, dropNulls := true, uniqueKeys := u } = .ok v.prune) ∧
      ((∃ v v', parse text { maxDepth := d } = .ok v ∧
          parse text { maxDepth := d, dropNulls := true } = .ok v') ∨
        ∃ e, parse text { maxDepth := d } = .error e ∧
          parse text { maxDepth := d, dropNulls := true } = .error e) ∧
      ∀ u v, parse text { maxDepth := d, dropNulls := true, uniqueKeys := u } = .ok v →
        ∀ m ∈ v.allMembers, m.2 ≠ .null := by
  refine ⟨?_, ?_, ?_⟩
  · intro v hv u
    have ho : Prunes { maxDepth := d, uniqueKeys := true }
        { maxDepth := d, dropNulls := true, uniqueKeys := u } := ⟨rfl, rfl, rfl, fun _ => rfl⟩
    obtain ⟨v', hv', hsame⟩ := (parse_pruned ho).1 v hv
    rw [hv', hsame rfl]
  · have ho : Prunes { maxDepth := d } { maxDepth := d, dropNulls := true } :=
      ⟨rfl, rfl, rfl, by rintro ⟨⟩⟩
    cases h : parse text { maxDepth := d } with
    | ok v =>
      obtain ⟨v', hv', -⟩ := (parse_pruned ho).1 v h
      exact .inl ⟨v, v', rfl, hv'⟩
    | error e => exact .inr ⟨e, rfl, (parse_pruned ho).2 e h rfl⟩
  · intro u v hv
    have hkeeps := (dropping (σ := TextSource)).document
      (s := ofText text { maxDepth := d, dropNulls := true, uniqueKeys := u }) trivial rfl
    obtain ⟨_, hnoNulls⟩ := hkeeps.answer v hv
    exact hnoNulls

/-- Null members of an object in an array of an object; the null item of the array stays. -/
theorem parse_dropNulls_nested :
    let text := "\x7ba:null,b:[null,\x7bc:NULL\x7d]\x7d"
    ∃ v, parse text { maxDepth := 3, uniqueKeys := true } = .ok v ∧
      parse text { maxDepth := 3, dropNulls := true } = .ok v.prune := by
  intro text
  have hok : (parse text { maxDepth := 3, uniqueKeys := true }).isOk = true := by decide +kernel
  cases h : parse text { maxDepth := 3, uniqueKeys := true } with
  | error e =>
    rw [h] at hok
    cases hok
  | ok v => exact ⟨v, rfl, (parse_dropNulls text 3).1 v h false⟩

end LaxJson
