import Subleq.Input
import Subleq.Literal
import Subleq.Byte
import Subleq.Memory
import Subleq.Text.Blank
import Subleq.Text.Lines

/-!
# Subleq.Terminal — numbers from the terminal

At the terminal the port asks for a number until it gets one: a prompt is shown, a line is read,
and a line that is no decimal number is answered with a request to enter it again. Numbers saturate
to `[-127, 127]`. What comes from the terminal need not be text; asking for a line then fails.
-/

namespace Subleq.Terminal

/-- What comes of asking the terminal for a line. How octets that are no text fall into lines, and how
many of them are lost, depends on how they arrive; so it is said for each request what it gets. -/
inductive Line where
  /-- A line, without its end. -/
  | text (line : String)
  /-- Octets that are no text. -/
  | undecodable (cause : Text.Utf8.Fault)
deriving Repr, DecidableEq

/-- The text shown before each line is read. -/
def prompt : String := "ioPort> "

/-- The lines of a terminal's text. Only a line feed ends a line. -/
def inputLines : List Char → List (List Char)
  | [] => []
  | c :: cs => if c = '\n' then [] :: inputLines cs else Text.consFirst c (inputLines cs)

/-- The lines of a text as they are typed. -/
def typed (text : String) : List Line :=
  (inputLines text.toList).map fun line => .text (String.ofList line)

/-- What a line is to the port. -/
inductive Reading where
  /-- A number. -/
  | number (value : Int)
  /-- No number; the user is told so. -/
  | refused (message : String)
  /-- Nothing that could be read. -/
  | failed (cause : InputFault)
deriving Repr, DecidableEq

/-- Reads a line, not counting the blanks at its ends. -/
def readText (line : String) : Reading :=
  let text := Text.trim line.toList
  match Text.Decimal.parse? text with
  | some numeral =>
    match numeral.value with
    | .ok v => .number (Byte.decode (Byte.signed v))
    | .error cause => .failed (.tooManyDigits cause)
  | none =>
    if text = [] then .refused "You have entered an empty string, please reenter."
    else .refused s!"'{String.ofList text}' is not a decimal number, please reenter."

/-- Reads what came of asking for a line. -/
def readLine : Line → Reading
  | .text line => readText line
  | .undecodable cause => .failed (.encoding cause)

/-- The reply when there are no more lines. -/
def ended (prompt : String) : Reply := { answer := .error .textEnded, shown := prompt }

/-- Asks for a number: the reply, and the lines that are left. -/
def ask (prompt : String) : List Line → Reply × List Line
  | [] => (ended prompt, [])
  | line :: lines =>
    match readLine line with
    | .number v => ({ answer := .ok v, shown := prompt }, lines)
    | .failed cause => ({ answer := .error cause, shown := prompt }, lines)
    | .refused message =>
      let (reply, rest) := ask prompt lines
      ({ reply with shown := s!"{prompt}{message}\n{reply.shown}" }, rest)

/-- All replies that the lines give, each with the lines that are left after it. The text given is
shown before the first reply. -/
def replies (prompt shown : String) : List Line → List (Reply × List Line)
  | [] => [({ answer := .error .textEnded, shown := s!"{shown}{prompt}" }, [])]
  | line :: lines =>
    match readLine line with
    | .number v =>
      ({ answer := .ok v, shown := s!"{shown}{prompt}" }, lines) :: replies prompt "" lines
    | .failed cause =>
      ({ answer := .error cause, shown := s!"{shown}{prompt}" }, lines) :: replies prompt "" lines
    | .refused message => replies prompt s!"{shown}{prompt}{message}\n" lines

/-- The input that the lines of a terminal give. -/
def input (lines : List Line) : Input :=
  .ofList ((replies prompt "" lines).map (·.1)) (ended prompt)

/-- The lines that are left after a number of replies. -/
def after (lines : List Line) : Nat → List Line
  | 0 => lines
  | n + 1 => ((replies prompt "" lines)[n]?.map (·.2)).getD []

/-! ## Display -/

/-- A value that the port is given, as the terminal shows it. The programs that are run at the
terminal hold bytes only, so that no value is too long to be shown. -/
def outputLine (value : Int) : String := s!"ioPort: {value}\n"

/-- What the terminal shows of an event. -/
def display : Event → String
  | .asked reply => reply.shown
  | .output _ value => outputLine value
  | .watched .. => ""

/-- A line was wanted when there was none left. -/
def isEnd : Event → Bool
  | .asked { answer := .error .textEnded, .. } => true
  | _ => false

end Subleq.Terminal
