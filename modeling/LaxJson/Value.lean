import LaxJson.Number.Binary64

/-!
# LaxJson.Value

Values of the lenient notation. Integers are 64-bit words, other numbers binary64. The members of
an object keep the order in which their keys came first; a key occurs once. What a value can hold
is a value by coercion.
-/

namespace LaxJson

/-- Members of an object, in order. -/
abbrev Members (α : Type) := List (String × α)

namespace Members

variable {α : Type}

def contains (ms : Members α) (key : String) : Bool := (ms.lookup key).isSome

/-- A new key goes to the end; a key that is there keeps its place and gets the new value. -/
def put (key : String) (a : α) : Members α → Members α
  | [] => [(key, a)]
  | (k, b) :: rest => if k = key then (k, a) :: rest else (k, b) :: put key a rest

end Members

inductive Value where
  | null
  | boolean (b : Bool)
  | integer (n : Int64)
  | decimal (x : Binary64)
  | text (s : String)
  | array (items : List Value)
  | object (members : List (String × Value))

namespace Value

instance : Inhabited Value := ⟨.null⟩

instance : Coe Bool Value := ⟨.boolean⟩

instance : Coe Int64 Value := ⟨.integer⟩

instance : Coe Binary64 Value := ⟨.decimal⟩

instance : Coe String Value := ⟨.text⟩

instance : Coe (List Value) Value := ⟨.array⟩

instance : Coe (Members Value) Value := ⟨.object⟩

def isNull : Value → Bool
  | .null => true
  | _ => false

theorem isNull_iff {v : Value} : v.isNull = true ↔ v = .null := by
  cases v <;> simp [isNull]

instance (v : Value) : Decidable (v = .null) := decidable_of_iff _ isNull_iff

def isBoolean : Value → Bool
  | .boolean _ => true
  | _ => false

def isNumber : Value → Bool
  | .integer _ => true
  | .decimal _ => true
  | _ => false

def isText : Value → Bool
  | .text _ => true
  | _ => false

def isArray : Value → Bool
  | .array _ => true
  | _ => false

def isObject : Value → Bool
  | .object _ => true
  | _ => false

def boolean? : Value → Option Bool
  | .boolean b => some b
  | _ => none

def integer? : Value → Option Int64
  | .integer n => some n
  | _ => none

/-- Any number as binary64; an integer is rounded to the nearest. -/
def decimal? : Value → Option Binary64
  | .integer n => some (.ofInt n.toInt)
  | .decimal x => some x
  | _ => none

def text? : Value → Option String
  | .text s => some s
  | _ => none

def items? : Value → Option (List Value)
  | .array items => some items
  | _ => none

def members? : Value → Option (Members Value)
  | .object ms => some ms
  | _ => none

/-! ## Equality -/

mutual

/-- Equality of values: the order of members does not matter, numbers of different kinds differ. -/
def same : Value → Value → Bool
  | .null, .null => true
  | .boolean a, .boolean b => a == b
  | .integer a, .integer b => a == b
  | .decimal a, .decimal b => a.same b
  | .text a, .text b => a == b
  | .array as, .array bs => sameItems as bs
  | .object as, .object bs => as.length == bs.length && sameMembers as bs
  | _, _ => false

def sameItems : List Value → List Value → Bool
  | [], [] => true
  | a :: as, b :: bs => same a b && sameItems as bs
  | _, _ => false

/-- Every member on the left has an equal one under the same key on the right. -/
def sameMembers : List (String × Value) → List (String × Value) → Bool
  | [], _ => true
  | (key, a) :: as, bs =>
    (match bs.lookup key with
    | some b => same a b
    | none => false) && sameMembers as bs

end

instance : BEq Value := ⟨same⟩

end Value

end LaxJson
