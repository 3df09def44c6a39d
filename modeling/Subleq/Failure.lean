import Subleq.Address
import Subleq.Files
import Subleq.Image.Reader
import Subleq.Machine.Run

/-!
# Subleq.Failure — why a command fails

Whatever can end the work of a command early is a failure. Most failures are bad data, which the
tools report in one line; the others end the tool.
-/

namespace Subleq

/-- What a command line can leave without a value. -/
inductive Missing where
  | target
  | limit
  | address
deriving Repr, DecidableEq

def Missing.message : Missing → String
  | target => "expected str, bytes or os.PathLike object, not list"
  | limit => "'>=' not supported between instances of 'int' and 'list'"
  | address => "'list' object has no attribute 'strip'"

/-- Why a command fails. -/
inductive Failure where
  | file (cause : FileError)
  | encoding (cause : Text.Utf8.Fault)
  | image (cause : Image.Unreadable)
  | address (cause : AddressError)
  | tooManyDigits (cause : Text.TooManyDigits)
  | fault (cause : Fault)
  /-- A value is wanted that the command line does not have. -/
  | missing (what : Missing)
  /-- The machine was still running when patience with it ran out. -/
  | unending
deriving Repr, DecidableEq

/-- The kinds of failures that are dealt with differently. -/
inductive Failure.Kind where
  /-- A text, a number or an address that is not well formed. -/
  | badValue
  | badImage
  | uninitialized
  /-- A file that is not there, under the name by which it was looked for. -/
  | missingFile (path : String)
  | otherFile
  | inputEnded
  | interrupted
  | missingValue
  | unending
deriving Repr, DecidableEq

namespace Failure

def message : Failure → String
  | file cause => cause.message
  | encoding cause => cause.message
  | image cause => cause.message
  | address cause => cause.message
  | tooManyDigits cause => cause.message
  | fault cause => cause.message
  | missing what => what.message
  | unending => ""

def kind : Failure → Kind
  | file ⟨.notFound, path⟩ => .missingFile path
  | file ⟨.nullCharacter, _⟩ => .badValue
  | file _ => .otherFile
  | encoding _ | address _ | tooManyDigits _ => .badValue
  | image _ => .badImage
  | fault (.uninitialized ..) | fault (.relayed ..) | fault (.input (.uninitialized _)) =>
    .uninitialized
  | fault (.input (.tooManyDigits _)) | fault (.input (.encoding _)) | fault .unwritable => .badValue
  | fault (.input .interrupted) => .interrupted
  | fault (.input .scriptEnded) | fault (.input .textEnded) => .inputEnded
  | missing _ => .missingValue
  | unending => .unending

end Failure

end Subleq
