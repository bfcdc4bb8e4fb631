import LaxJson.Proofs.Document.Grammar
import LaxJson.Proofs.Grammar.Values
import LaxJson.Proofs.Value.Classification
import LaxJson.Proofs.Value.Equality

/-!
# LaxJson.Proofs.Document.Equality

Equality between values that texts mean. It is an equivalence there because no text means a number
that is not finite, and no object comes out with a key twice.

* `Derives.sound`: so it is of everything that the grammar derives.
* `EqualityLaws`: what equality is to three values, and `parse_equality`: it is that to any three
  that were parsed.
-/

namespace LaxJson

open Value (Sound Permuted part?)

/-- An unquoted text is a decimal number only if that is finite. -/
theorem Literal.sound_value (text : String) : (Literal.value text).Sound := by
  rw [value_eq]
  rcases valueWith_cases readDecimal text with
    ⟨-, hv⟩ | ⟨b, -, hv⟩ | ⟨n, -, hv⟩ | ⟨x, ⟨-, -, -, hfinite⟩, hv⟩ | hv <;> rw [hv]
  · exact .null
  · exact .boolean b
  · exact .integer n
  · exact .decimal hfinite
  · exact .text text

theorem Grammar.Derives.sound {o : Options} {room : Nat} {phrase : Phrase} {w : List Char}
    (h : Derives o room phrase w) : phrase.Holds Sound := by
  refine h.holds (P := fun _ => Sound) ?_ ?_ ?_ ?_ ?_
  · exact fun _ s => .text s
  · exact fun _ text => Literal.sound_value text
  · exact fun _ => .null
  · exact fun _ vs hvs => .array hvs
  · exact fun _ ms hms =>
      .object (Members.nodup_collect _) fun m hm => hms m (mem_of_objectMembers hm)

/-- Some text means the value, under some options. -/
def Parsed (v : Value) : Prop := ∃ text o, parse text o = .ok v

theorem Parsed.sound {v : Value} (h : Parsed v) : v.Sound := by
  obtain ⟨text, o, h⟩ := h
  rw [parse, Scanner.document_ofText] at h
  obtain ⟨b, body, b', -, -, hbody, -⟩ :=
    Scanner.document_sound (Scanner.at_start text o) (Prod.ext h rfl)
  exact hbody.sound

/-- What equality is to the values. -/
structure EqualityLaws (a b c : Value) : Prop where
  refl : (a == a) = true
  symm : (a == b) = true → (b == a) = true
  trans : (a == b) = true → (b == c) = true → (a == c) = true
  /-- Objects are equal if the same keys lead to equal values. -/
  objects : ∀ as bs, a = .object as → b = .object bs →
    ((a == b) = true ↔
      ∀ key, Option.Rel (fun v w => (v == w) = true) (as.lookup key) (bs.lookup key))
  /-- The order of members does not matter, at any depth. -/
  permuted : ∀ a' b', Permuted a a' → Permuted b b' → (a' == b') = (a == b)
  /-- Where the one has an integer the other has that too, and no decimal number. -/
  integers : (a == b) = true → ∀ path n,
    part? path a = some (.integer n) ↔ part? path b = some (.integer n)

/-- **Equality is an equivalence on what was parsed.** Take values that any texts mean, under any
options. Every decimal number in them is finite, at any depth. Each value equals itself, and
equality is symmetric and transitive. It takes no notice of the order of members, at any depth, and
never takes an integer for a decimal number. -/
theorem parse_equality {a b c : Value} (ha : Parsed a) (hb : Parsed b) (hc : Parsed c) :
    (a.Sound ∧ b.Sound ∧ c.Sound) ∧ EqualityLaws a b c := by
  have ha := ha.sound
  have hb := hb.sound
  have hc := hc.sound
  refine ⟨⟨ha, hb, hc⟩, ?_⟩
  constructor
  case refl => exact Value.same_refl ha
  case symm => exact Value.same_symm ha hb
  case trans => exact Value.same_trans ha hb hc
  case objects =>
    rintro as bs rfl rfl
    exact Value.same_object_iff ha.keys hb.keys
  case permuted => exact fun a' b' h h' => h.same_congr h' ha hb
  case integers =>
    intro hab path n
    exact ⟨Value.integer_part_of_same ha hb hab,
      Value.integer_part_of_same hb ha (Value.same_symm ha hb hab)⟩

/-- Objects with the two zeros, in different orders. -/
theorem parse_equality_zeros :
    ∃ a b, parse "\x7bzero: 0.0, list: [1]\x7d" {} = .ok a ∧
      parse "\x7blist: [1]; zero: -0e0\x7d" {} = .ok b ∧ (a == b) = true ∧
      (a.Sound ∧ b.Sound ∧ a.Sound) ∧ EqualityLaws a b a := by
  have hequal : ((parse "\x7bzero: 0.0, list: [1]\x7d" {}).bind fun a =>
      (parse "\x7blist: [1]; zero: -0e0\x7d" {}).map fun b => a == b).toOption = some true := by
    decide +kernel
  cases ha : parse "\x7bzero: 0.0, list: [1]\x7d" {} with
  | error e =>
    rw [ha] at hequal
    cases hequal
  | ok a =>
    cases hb : parse "\x7blist: [1]; zero: -0e0\x7d" {} with
    | error e =>
      rw [ha, hb] at hequal
      cases hequal
    | ok b =>
      rw [ha, hb] at hequal
      exact ⟨a, b, rfl, rfl, Option.some.inj hequal,
        parse_equality ⟨_, _, ha⟩ ⟨_, _, hb⟩ ⟨_, _, ha⟩⟩

end LaxJson
