import LaxJson.Source

/-!
# LaxJson.Source.Script

A source that follows a script: the answers its reads give, one by one, failures and ends of input
included. Once the script is over every read reports the end. There is no mark and no reset.
-/

namespace LaxJson

structure ScriptSource where
  answers : List (Except SourceError (Option Char))

namespace ScriptSource

/-- A part of a script: a run of characters, or one failing read. -/
inductive Event where
  | text (s : String)
  | failure (e : SourceError)

def Event.answers : Event → List (Except SourceError (Option Char))
  | .text s => s.toList.map fun c => .ok (some c)
  | .failure e => [.error e]

def ofEvents (events : List Event) : ScriptSource := ⟨events.flatMap Event.answers⟩

def read : ScriptSource → Except SourceError (Option Char) × ScriptSource
  | ⟨[]⟩ => (.ok none, ⟨[]⟩)
  | ⟨answer :: rest⟩ => (answer, ⟨rest⟩)

instance : CharSource ScriptSource where
  read := read

instance : FiniteSource ScriptSource where
  size s := s.answers.length
  size_read_some := by
    rintro ⟨_ | ⟨a, rest⟩⟩ s' c h <;> cases h
    exact Nat.lt_succ_self _
  size_read_none := by
    rintro ⟨_ | ⟨a, rest⟩⟩ s' h <;> cases h
    · exact Nat.le_refl _
    · exact Nat.le_succ _

end ScriptSource

end LaxJson
