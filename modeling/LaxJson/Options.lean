/-!
# LaxJson.Options

How objects and arrays are put together.
-/

namespace LaxJson

/-- Limits and choices: `maxDepth` bounds the containers that may be open at once, `dropNulls`
leaves out members whose value is null, and `uniqueKeys` makes a key that is already there an
error. -/
structure Options where
  maxDepth : Nat := 128
  dropNulls : Bool := false
  uniqueKeys : Bool := false
  deriving DecidableEq

end LaxJson
