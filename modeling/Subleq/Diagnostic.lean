import Subleq.Statement
import Subleq.SymbolTable

/-!
# Subleq.Diagnostic — what is reported about a line

Compiling goes on after a line that cannot be compiled. What is wrong with a line, or remarkable
about it, is an issue; an issue with the number of its line is a diagnostic. A number that is too long
to be written has no place in the text of an issue or of a diagnostic.
-/

namespace Subleq

/-- What is wrong with a line, or remarkable about it. -/
inductive Issue where
  /-- The line is no statement. -/
  | statement (cause : StatementError)
  /-- An operand is a malformed literal. -/
  | literal (cause : LiteralError)
  /-- An operand is a name that is not known. -/
  | unknownVariable (name : String)
  /-- The name cannot be defined. -/
  | define (cause : DefineError)
  /-- The code of the line does not fit into the program store. -/
  | storeFull (cells : Nat) (pc : Int)
  /-- The line defines a name after the first line that does something. -/
  | lateDefinition (name : String)
  /-- An operand is a hexadecimal literal that does not have two digits. -/
  | hexLength (cause : HexWarning)
deriving Repr, DecidableEq

/-- The kinds of issues. Only with a warning is the line compiled all the same. -/
inductive Issue.Kind where
  | parse
  | allocation
  | warning
deriving Repr, DecidableEq

def Issue.Kind.name : Issue.Kind → String
  | .parse => "parse"
  | .allocation => "allocation"
  | .warning => "warning"

namespace Issue

def kind : Issue → Kind
  | statement _ | literal _ | unknownVariable _ | define (.badName _) => .parse
  | define (.heapFull ..) | storeFull .. => .allocation
  | lateDefinition _ | hexLength _ => .warning

/-- The numbers in the text of an issue that need not be small. -/
def numbers : Issue → List Int
  | define (.heapFull capacity _) => [capacity]
  | storeFull _ pc => [pc]
  | _ => []

/-- The text of an issue can be written. -/
def IsWritable (cause : Issue) : Prop := ∀ n ∈ cause.numbers, Text.IsWritable n

instance (cause : Issue) : Decidable cause.IsWritable :=
  inferInstanceAs (Decidable (∀ n ∈ cause.numbers, Text.IsWritable n))

/-- The text of an issue that can be written. -/
def message : Issue → String
  | statement cause => cause.message
  | literal cause => cause.message
  | unknownVariable name => s!"cannot find variable: {name}"
  | define cause => cause.message
  | storeFull cells pc =>
    s!"program store full: {cells} cells needed at address {pc}, last usable cell is " ++
      toString (Layout.programLimit - 1)
  | lateDefinition name => s!"definition of '{name}' after the definition section"
  | hexLength cause => cause.message

end Issue

/-- An issue of a line. -/
structure Diagnostic where
  issue : Issue
  line : Int
deriving Repr, DecidableEq

namespace Diagnostic

/-- The line was not compiled. -/
def isError (d : Diagnostic) : Bool := d.issue.kind != .warning

def render (d : Diagnostic) : Except Text.TooManyDigits String := do
  return s!"line {← Text.written d.line}: {d.issue.kind.name}: {d.issue.message}"

end Diagnostic

end Subleq
