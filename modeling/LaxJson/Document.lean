import LaxJson.Scanner.Value

/-!
# LaxJson.Document

Whole documents: one value, with nothing but blanks around it.
-/

namespace LaxJson

/-- Reads a value that fills what is left of the input. -/
def Scanner.document {σ : Type} [CharSource σ] [FiniteSource σ] (s : Scanner σ) :
    Except Failure Value × Scanner σ :=
  match s.value with
  | (.error e, s1) => (.error e, s1)
  | (.ok v, s1) =>
    match s1.nextSolid with
    | (.error e, s2) => (.error e, s2)
    | (.ok c, s2) => if c = endMark then (.ok v, s2) else s2.fail .trailingCharacters

def parse (text : String) (options : Options := {}) : Except Failure Value :=
  (Scanner.ofText text options).document.1

/-- Parses a stream of UTF-8 bytes as it is delivered. -/
def parseDeliveries (ds : List Delivery) : Except Failure Value :=
  (Scanner.ofDeliveries ds {}).document.1

end LaxJson
