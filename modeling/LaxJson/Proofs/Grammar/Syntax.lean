import LaxJson.Literal
import LaxJson.Options
import LaxJson.Position
import LaxJson.Proofs.Utf16.Units
import LaxJson.Proofs.Value.Members

/-!
# LaxJson.Proofs.Grammar.Syntax

The lenient notation as a grammar, with what each phrase means. `Derives` relates a phrase of the
grammar to the characters that spell it; blanks may stand between any two of its tokens.

* A value is a quoted string, an unquoted literal, an array or an object. Only the literal is
  turned into a number or a keyword.
* The slots of an array stand between commas and may be empty. An empty slot is null, but an empty
  last slot is nothing.
* The members of an object stand between commas or semicolons, one of which may also follow the
  last member.
-/

namespace LaxJson
namespace Grammar

/-! ## Tokens -/

/-- A run of the characters U+0001 to U+0020. -/
def Blanks (w : List Char) : Prop := ∀ c ∈ w, '\x01' ≤ c ∧ c ≤ ' '

instance (w : List Char) : Decidable (Blanks w) := List.decidableBAll _ w

/-- The characters that cannot be part of a literal, controls aside. -/
def literalEnds : List Char :=
  [',', ':', ']', '\x7d', '/', '\\', '"', '[', '\x7b', ';', '=', '#']

/-- Unquoted text. It may have blanks inside but not at its ends. -/
structure Unquoted (w : List Char) : Prop where
  first : ∃ c, w.head? = some c ∧ ' ' < c ∧ c ≠ '\''
  last : ∃ c, w.getLast? = some c ∧ ' ' < c
  all : ∀ c ∈ w, ' ' ≤ c ∧ c ∉ literalEnds

/-- The one letter escapes and what they stand for. -/
def escapes : List (Char × Char) :=
  [('b', '\x08'), ('t', '\t'), ('n', '\n'), ('f', '\x0c'), ('r', '\r'), ('"', '"'), ('\'', '\''),
    ('\\', '\\'), ('/', '/')]

/-- A hexadecimal digit of either case and its value. -/
def HexDigit (c : Char) (n : Nat) : Prop :=
  n < 16 ∧ (c = Nat.digitChar n ∨ c = (Nat.digitChar n).toUpper)

instance (c : Char) (n : Nat) : Decidable (HexDigit c n) := inferInstanceAs (Decidable (_ ∧ _))

/-- What may follow a backslash, and the UTF-16 code units that it stands for. -/
inductive Escape : List Char → List Nat → Prop where
  | simple {letter c : Char} : (letter, c) ∈ escapes → Escape [letter] (Utf16.units c)
  | unicode {c₁ c₂ c₃ c₄ : Char} {n₁ n₂ n₃ n₄ : Nat} :
    HexDigit c₁ n₁ → HexDigit c₂ n₂ → HexDigit c₃ n₃ → HexDigit c₄ n₄ →
      Escape ['u', c₁, c₂, c₃, c₄] [((n₁ * 16 + n₂) * 16 + n₃) * 16 + n₄]

/-- What may stand between two quotes, and its code units. -/
inductive StringBody (quote : Char) : List Char → List Nat → Prop where
  | nil : StringBody quote [] []
  | raw {c : Char} {w : List Char} {us : List Nat} :
    c ≠ endMark → c ≠ '\\' → c ≠ quote → StringBody quote w us →
      StringBody quote (c :: w) (Utf16.units c ++ us)
  | escape {e w : List Char} {us us' : List Nat} :
    Escape e us → StringBody quote w us' → StringBody quote ('\\' :: (e ++ w)) (us ++ us')

/-- A quoted string and its text. -/
inductive Quoted : List Char → String → Prop where
  | between {quote : Char} {w : List Char} {us : List Nat} :
    quote = '"' ∨ quote = '\'' → StringBody quote w us →
      Quoted (quote :: (w ++ [quote])) (String.ofList (Utf16.decode us))

/-- A key is quoted or not; either way it is text. -/
inductive Key : List Char → String → Prop where
  | quoted {w : List Char} {s : String} : Quoted w s → Key w s
  | unquoted {w : List Char} : Unquoted w → Key w (String.ofList w)

/-! ## Values -/

/-- The items that the slots of an array amount to. -/
def slotItems : List (Option Value) → List Value
  | [] => []
  | [none] => []
  | slot :: rest => slot.getD .null :: slotItems rest

/-- The object that members as written amount to. -/
def objectMembers (options : Options) (ms : List (String × Value)) : Members Value :=
  Members.collect (if options.dropNulls then ms.filter fun m => m.2 ≠ .null else ms)

/-- The phrases of the grammar with what they mean. -/
inductive Phrase where
  | value (v : Value)
  | slot (slot : Option Value)
  | slots (slots : List (Option Value))
  | member (key : String) (v : Value)
  | members (ms : List (String × Value))

/-- The characters spell the phrase, with containers at most `room` deep. -/
inductive Derives (options : Options) : Nat → Phrase → List Char → Prop where
  | quoted {room : Nat} {w : List Char} {s : String} :
    Quoted w s → Derives options room (.value (.text s)) w
  | literal {room : Nat} {w : List Char} :
    Unquoted w → Derives options room (.value (Literal.value (String.ofList w))) w
  | array {room : Nat} {w b b' : List Char} {slots : List (Option Value)} :
    Blanks b → Derives options room (.slots slots) w → Blanks b' →
      Derives options (room + 1) (.value (.array (slotItems slots)))
        ('[' :: (b ++ w ++ b' ++ [']']))
  | emptyObject {room : Nat} {b : List Char} :
    Blanks b → Derives options (room + 1) (.value (.object [])) ('\x7b' :: (b ++ ['\x7d']))
  | object {room : Nat} {w b b' : List Char} {ms : List (String × Value)} :
    Blanks b → Derives options room (.members ms) w → Blanks b' →
      Derives options (room + 1) (.value (.object (objectMembers options ms)))
        ('\x7b' :: (b ++ w ++ b' ++ ['\x7d']))
  | emptySlot {room : Nat} : Derives options room (.slot none) []
  | fullSlot {room : Nat} {w : List Char} {v : Value} :
    Derives options room (.value v) w → Derives options room (.slot (some v)) w
  | lastSlot {room : Nat} {w : List Char} {slot : Option Value} :
    Derives options room (.slot slot) w → Derives options room (.slots [slot]) w
  | moreSlots {room : Nat} {w w' b b' : List Char} {slot : Option Value}
    {slots : List (Option Value)} :
    Derives options room (.slot slot) w → Blanks b → Blanks b' →
      Derives options room (.slots slots) w' →
      Derives options room (.slots (slot :: slots)) (w ++ b ++ ',' :: (b' ++ w'))
  | member {room : Nat} {w k b b' : List Char} {key : String} {v : Value} :
    Key k key → Blanks b → Blanks b' → Derives options room (.value v) w →
      Derives options room (.member key v) (k ++ b ++ ':' :: (b' ++ w))
  | lastMember {room : Nat} {w : List Char} {key : String} {v : Value} :
    Derives options room (.member key v) w → Derives options room (.members [(key, v)]) w
  | separated {room : Nat} {w b : List Char} {key : String} {v : Value} {separator : Char} :
    Derives options room (.member key v) w → Blanks b → separator = ',' ∨ separator = ';' →
      Derives options room (.members [(key, v)]) (w ++ b ++ [separator])
  | moreMembers {room : Nat} {w w' b b' : List Char} {key : String} {v : Value}
    {ms : List (String × Value)} {separator : Char} :
    Derives options room (.member key v) w → Blanks b → separator = ',' ∨ separator = ';' →
      Blanks b' → Derives options room (.members ms) w' →
      Derives options room (.members ((key, v) :: ms)) (w ++ b ++ separator :: (b' ++ w'))

/-- A document is a value with blanks around it. -/
def Document (options : Options) (w : List Char) (v : Value) : Prop :=
  ∃ b body b', w = b ++ body ++ b' ∧ Blanks b ∧ Derives options options.maxDepth (.value v) body ∧
    Blanks b'

end Grammar
end LaxJson
