import Subleq.Image
import Subleq.Text.Blank
import Subleq.Text.Lines

/-!
# Subleq.Image.Reader — reading memory images

An image is read line by line, in three parts:

1. up to the line `BEGIN`, a declaration of the shape has to declare the right one, and any other
   line is passed over;
2. up to the line `END;`, each line that is not blank is a record, and no two records have one
   address;
3. what follows is not looked at.

Reading is all or nothing: the first line with a defect makes the image unreadable.
-/

namespace Subleq.Image

/-- What is wrong with an image. -/
inductive Defect where
  | missingBegin
  | missingEnd
  | declaration (key expected found : String)
  | shape (line : String)
  | noSemicolon
  | trailer (text : String)
  | addressField (text : String)
  | data (cause : Cell.DecodeError)
  | duplicate (address : Int)
deriving Repr, DecidableEq

def Defect.message : Defect → String
  | .missingBegin => s!"missing {beginLine} line"
  | .missingEnd => s!"missing {endLine} terminator"
  | .declaration key expected found => s!"{key} must be {expected}, got {found}"
  | .shape line => s!"expected 'address : data ;', got '{line}'"
  | .noSemicolon => "record is missing ';'"
  | .trailer text => s!"unexpected text after ';': '{text}'"
  | .addressField text => s!"bad address field: '{text}'"
  | .data cause => cause.message
  | .duplicate address => s!"duplicate record for address {address}"

/-- A defect and the number of the line that shows it; 0 where the whole text does. -/
structure Unreadable where
  line : Nat
  defect : Defect
deriving Repr, DecidableEq

def Unreadable.message (e : Unreadable) : String :=
  if e.line = 0 then e.defect.message else s!"Line {e.line}: {e.defect.message}"

/-! ## Declarations -/

/-- A character of a declaration's key. -/
def isKeyChar (c : Char) : Bool := ('A' ≤ c && c ≤ 'Z') || c == '_'

/-- A character of a declaration's value. -/
def isValueChar (c : Char) : Bool :=
  ('A' ≤ c && c ≤ 'Z') || ('a' ≤ c && c ≤ 'z') || ('0' ≤ c && c ≤ '9')

/-- The key and the value of a line `KEY = VALUE;`, which may have blanks around the equals sign
and before the semicolon. -/
def declaration? (line : List Char) : Option (String × String) :=
  let key := line.takeWhile isKeyChar
  match Text.trimStart (line.dropWhile isKeyChar) with
  | '=' :: rest =>
    let rest := Text.trimStart rest
    let value := rest.takeWhile isValueChar
    if key = [] ∨ value = [] ∨ Text.trimStart (rest.dropWhile isValueChar) ≠ [';'] then none
    else some (String.ofList key, String.ofList value)
  | _ => none

/-- The defect of a line before the records. -/
def headerDefect? (line : List Char) : Option Defect := do
  let (key, found) ← declaration? line
  let (_, expected) ← declarations.find? (·.1 = key)
  if found = expected then none else some (.declaration key expected found)

/-! ## Records -/

/-- The text before the first separator and the text after it. -/
def cutAt (sep : Char) (cs : List Char) : Option (List Char × List Char) :=
  match cs.dropWhile (· != sep) with
  | [] => none
  | _ :: rest => some (cs.takeWhile (· != sep), rest)

/-- The address that a field of eight binary digits writes. -/
def recordAddress? (text : List Char) : Option Int :=
  if text.length ≠ addressWidth then none
  else (text.mapM Text.bitValue?).map fun digits => (Text.ofDigits 2 digits : Int)

/-- The address and the cell of a record. -/
def readRecord (line : List Char) : Except Defect (Int × Cell) := do
  let shape := Defect.shape (String.ofList line)
  let some (before, after) := cutAt ':' line | throw shape
  if after.contains ':' then throw shape
  let some (data, trailer) := cutAt ';' after | throw .noSemicolon
  let trailer := Text.trim trailer
  if trailer ≠ [] then throw (.trailer (String.ofList trailer))
  let field := Text.trim before
  let some address := recordAddress? field | throw (.addressField (String.ofList field))
  let cell ← (Cell.decode (String.ofList (Text.trim data))).mapError .data
  return (address, cell)

/-! ## The whole text -/

/-- Reads the records, the first of which is on line `n`, into the store read so far. -/
def readRecords (n : Nat) (p : Program) : List (List Char) → Except Unreadable Program
  | [] => .error ⟨0, .missingEnd⟩
  | line :: lines =>
    let line := Text.trim line
    if line = endLine.toList then .ok p
    else if line = [] then readRecords (n + 1) p lines
    else
      match readRecord line with
      | .error defect => .error ⟨n, defect⟩
      | .ok (address, cell) =>
        if p.contains address then .error ⟨n, .duplicate address⟩
        else readRecords (n + 1) (p.insert address cell) lines

/-- Reads the header, the first line of which is line `n`, and the records after it. -/
def readHeader (n : Nat) : List (List Char) → Except Unreadable Program
  | [] => .error ⟨0, .missingBegin⟩
  | line :: lines =>
    let line := Text.trim line
    if line = beginLine.toList then readRecords (n + 1) ∅ lines
    else
      match headerDefect? line with
      | some defect => .error ⟨n, defect⟩
      | none => readHeader (n + 1) lines

/-- The program store that an image holds. -/
def read (text : String) : Except Unreadable Program :=
  readHeader 1 (Text.lines text.toList)

end Subleq.Image
