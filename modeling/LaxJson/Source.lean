/-!
# LaxJson.Source

A source hands out one character at a time and may support a mark to which it can be reset.
`CharSource` is the interface; marking is optional and refused by default. `FiniteSource` adds a
bound on the characters still to come, which is what ends every loop over a source.
-/

namespace LaxJson

/-- The kinds of failure a source can report. -/
inductive ErrorKind where
  | interrupted
  | connectionReset
  | unexpectedEof
  | wouldBlock
  | invalidData
  | invalidInput
  | unsupported
  | other
  deriving DecidableEq

structure SourceError where
  kind : ErrorKind
  message : String
  deriving DecidableEq

namespace SourceError

def markUnsupported : SourceError := ⟨.unsupported, "mark() not supported"⟩

def resetUnsupported : SourceError := ⟨.unsupported, "reset() not supported"⟩

def notMarked : SourceError := ⟨.invalidInput, "stream not marked"⟩

def markInvalid : SourceError := ⟨.invalidInput, "mark invalid: read limit exceeded"⟩

end SourceError

/-- Reading answers `none` at the end of the input. `mark limit` asks that a later `reset` return
to this point as long as no more than `limit` characters were read in between. -/
class CharSource (σ : Type) where
  read : σ → Except SourceError (Option Char) × σ
  mark : σ → Nat → Except SourceError Unit × σ := fun s _ => (.error .markUnsupported, s)
  reset : σ → Except SourceError Unit × σ := fun s => (.error .resetUnsupported, s)
  unmark : σ → σ := fun s => s

/-- A source that can only hand out finitely many characters by reading on. -/
class FiniteSource (σ : Type) [CharSource σ] where
  size : σ → Nat
  size_read_some : ∀ {s s' : σ} {c : Char},
    CharSource.read s = (.ok (some c), s') → size s' < size s
  size_read_none : ∀ {s s' : σ},
    CharSource.read s = (.ok none, s') → size s' ≤ size s

namespace CharSource

/-- Reads to the end, or to the first failure; the characters come newest first. -/
def drainFrom {σ : Type} [CharSource σ] [FiniteSource σ] (text : List Char) (s : σ) :
    (List Char × Option SourceError) × σ :=
  match _h : read s with
  | (.error e, s') => ((text, some e), s')
  | (.ok none, s') => ((text, none), s')
  | (.ok (some c), s') => drainFrom (c :: text) s'
termination_by FiniteSource.size s
decreasing_by exact FiniteSource.size_read_some _h

/-- Everything the source hands out up to its end, with the failure that stopped it early. -/
def drain {σ : Type} [CharSource σ] [FiniteSource σ] (s : σ) :
    (String × Option SourceError) × σ :=
  match drainFrom [] s with
  | ((text, stop), s') => ((String.ofList text.reverse, stop), s')

end CharSource

end LaxJson
