import LaxJson.Position
import LaxJson.Source
import LaxJson.Text.Escape

/-!
# LaxJson.Failure

Why a scanner operation fails. A `Fault` is something wrong with the text; a `Failure` is a fault
with its position, a misuse of the scanner, a failure of the source, or a request too large to
serve.
-/

namespace LaxJson

inductive Container where
  | object
  | array
  deriving DecidableEq

/-- What can be wrong with a text. `reported` carries a message of the caller's own. -/
inductive Fault where
  | missingValue
  | unterminatedString
  | illegalEscape
  | textTooShort
  | trailingCharacters
  | unexpected (wanted found : Char)
  | missingOpening (c : Container)
  | missingClosing (c : Container)
  | missingSeparator (c : Container)
  | tooDeep (c : Container)
  | compositeKey
  | missingColon
  | duplicateKey (key : String)
  | reported (message : String)
  deriving DecidableEq

/-- What a caller can do wrong. -/
inductive Misuse where
  | steppedBackTwice
  | steppedBackAtStart
  deriving DecidableEq

inductive Failure where
  | faulty (fault : Fault) (position : Position)
  | misused (misuse : Misuse)
  | source (e : SourceError)
  | oversized
  deriving DecidableEq

def Container.name : Container → String
  | .object => "object"
  | .array => "array"

def Container.opening : Container → Char
  | .object => '\x7b'
  | .array => '['

def Container.closing : Container → Char
  | .object => '\x7d'
  | .array => ']'

def Fault.message : Fault → String
  | .missingValue => "missing value"
  | .unterminatedString => "unterminated string"
  | .illegalEscape => "illegal escape"
  | .textTooShort => "substring bounds error"
  | .trailingCharacters => "trailing characters"
  | .unexpected wanted found =>
    "expected '" ++ Escape.inMessage wanted ++ "', saw '" ++ Escape.inMessage found ++ "'"
  | .missingOpening c => c.name ++ " text must begin with '" ++ c.opening.toString ++ "'"
  | .missingClosing c => c.name ++ " text must end with '" ++ c.closing.toString ++ "'"
  | .missingSeparator c => "expected ',' or '" ++ c.closing.toString ++ "'"
  | .tooDeep c => c.name ++ " depth too large"
  | .compositeKey => "object key must be a string"
  | .missingColon => "expected ':' after a key"
  | .duplicateKey key => "duplicate key " ++ Escape.quotedString key
  | .reported message => message

def Misuse.message : Misuse → String
  | .steppedBackTwice => "cannot step back twice"
  | .steppedBackAtStart => "cannot step back before the first character"

namespace Failure

/-- The message as a diagnostic shows it; only a fault has a position. -/
def describe : Failure → String
  | .faulty fault position => fault.message ++ position.describe
  | .misused m => "malformed scanner state: " ++ m.message
  | .source e => "i/o failure: " ++ e.message
  | .oversized => "capacity overflow"

def position? : Failure → Option Position
  | .faulty _ position => some position
  | _ => none

def message? : Failure → Option String
  | .faulty fault _ => some fault.message
  | _ => none

end Failure

end LaxJson
