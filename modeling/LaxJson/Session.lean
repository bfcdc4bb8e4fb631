import LaxJson.Scanner.Seek
import LaxJson.Scanner.Value

/-!
# LaxJson.Session

Operations as data. A `Request` names an operation of a scanner with its argument, a `Reply` holds
what it answers, and `Scanner.run` performs a list of requests one after the other, whether they
succeed or not. `SourceRequest` does the same for a bare source.
-/

namespace LaxJson

inductive Request where
  | next
  | stepBack
  | hasNext
  | expect (c : Char)
  | take (n : Nat)
  | nextSolid
  | quoted (quote : Char)
  | fieldTo (delimiter : Char)
  | fieldToAny (delimiters : String)
  | value
  | seek (target : Char)

inductive Reply where
  | done
  | char (c : Char)
  | flag (b : Bool)
  | text (s : String)
  | value (v : Value)

/-- What a scanner shows of itself between operations. -/
structure View where
  position : Position
  previous : Char
  atEnd : Bool
  deriving DecidableEq

namespace Scanner

variable {σ : Type}

def view (s : Scanner σ) : View := ⟨s.position, s.previous, s.atEnd⟩

/-- Puts the answer of an operation into a reply. -/
def reply {α : Type} (f : α → Reply) (r : Except Failure α × Scanner σ) :
    Except Failure Reply × Scanner σ :=
  match r with
  | (.error e, s) => (.error e, s)
  | (.ok a, s) => (.ok (f a), s)

variable [CharSource σ]

def perform [FiniteSource σ] (s : Scanner σ) : Request → Except Failure Reply × Scanner σ
  | .next => reply .char s.next
  | .stepBack => reply (fun _ => .done) s.stepBack
  | .hasNext => reply .flag s.hasNext
  | .expect c => reply .char (s.expect c)
  | .take n => reply .text (s.take n)
  | .nextSolid => reply .char s.nextSolid
  | .quoted quote => reply .text (s.quoted quote)
  | .fieldTo delimiter => reply .text (s.fieldTo delimiter)
  | .fieldToAny delimiters => reply .text (s.fieldToAny delimiters)
  | .value => reply .value s.value
  | .seek target => reply .char (s.seek target)

/-- Performs the requests in order. Each answer comes with the view after it. -/
def run [FiniteSource σ] (s : Scanner σ) :
    List Request → List (Except Failure Reply × View) × Scanner σ
  | [] => ([], s)
  | request :: rest =>
    match s.perform request with
    | (answer, s1) =>
      match run s1 rest with
      | (answers, s2) => ((answer, s1.view) :: answers, s2)

/-- Reads on to the end mark or the first failure; the characters come newest first. -/
def readAllFrom [FiniteSource σ] (text : List Char) (s : Scanner σ) :
    (List Char × Option Failure) × Scanner σ :=
  match _h : s.next with
  | (.error e, s1) => ((text, some e), s1)
  | (.ok c, s1) => if _hc : c = endMark then ((text, none), s1) else readAllFrom (c :: text) s1
termination_by s.unread
decreasing_by exact (next_took _h).lt _hc

/-- Every character up to the end mark, with the failure that stopped the reading early. -/
def readAll [FiniteSource σ] (s : Scanner σ) : (String × Option Failure) × Scanner σ :=
  match readAllFrom [] s with
  | ((text, stop), s') => ((String.ofList text.reverse, stop), s')

end Scanner

inductive SourceRequest where
  | read
  | mark (limit : Nat)
  | reset
  | unmark

inductive SourceReply where
  | done
  | char (c : Option Char)
  deriving DecidableEq

namespace CharSource

variable {σ : Type} [CharSource σ]

def perform (s : σ) : SourceRequest → Except SourceError SourceReply × σ
  | .read =>
    match read s with
    | (.error e, s') => (.error e, s')
    | (.ok c, s') => (.ok (.char c), s')
  | .mark limit =>
    match mark s limit with
    | (.error e, s') => (.error e, s')
    | (.ok (), s') => (.ok .done, s')
  | .reset =>
    match reset s with
    | (.error e, s') => (.error e, s')
    | (.ok (), s') => (.ok .done, s')
  | .unmark => (.ok .done, unmark s)

theorem perform_read (s : σ) : (perform s .read).2 = (read s).2 := by
  rw [perform]
  rcases read s with ⟨_ | _, s'⟩ <;> rfl

theorem perform_mark (s : σ) (limit : Nat) : (perform s (.mark limit)).2 = (mark s limit).2 := by
  rw [perform]
  rcases mark s limit with ⟨_ | _, s'⟩ <;> rfl

theorem perform_reset (s : σ) : (perform s .reset).2 = (reset s).2 := by
  rw [perform]
  rcases reset s with ⟨_ | _, s'⟩ <;> rfl

/-- Performs the requests in order. -/
def run (s : σ) : List SourceRequest → List (Except SourceError SourceReply) × σ
  | [] => ([], s)
  | request :: rest =>
    match perform s request with
    | (answer, s1) =>
      match run s1 rest with
      | (answers, s2) => (answer :: answers, s2)

end CharSource

end LaxJson
