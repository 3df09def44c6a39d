import Subleq.Literal
import Subleq.Log
import Subleq.Text.Blank

/-!
# Subleq.Address — addresses typed by the user

On the command line and at the console an address is a literal: decimal, binary or hexadecimal.
Unlike an operand of a statement, a decimal address has to be one that exists.
-/

namespace Subleq

/-- Why a text is no address. -/
inductive AddressError where
  | literal (cause : LiteralError)
  | notNumber (text : String)
  | outOfRange (value : Int)
  | tooManyDigits (cause : Text.TooManyDigits)
deriving Repr, DecidableEq

def AddressError.message : AddressError → String
  | .literal cause => cause.message
  | .notNumber text => s!"invalid address '{text}'"
  | .outOfRange value => s!"address {value} out of range 0-255"
  | .tooManyDigits cause => cause.message

namespace Address

/-- The address that a text without blanks around it writes, and what is unusual about it. -/
def ofToken (token : String) : Except AddressError (Int × Option HexWarning) :=
  match Literal.ofToken? token with
  | some (.decimal numeral) =>
    match numeral.value with
    | .ok v => if 0 ≤ v ∧ v ≤ 255 then .ok (v, none) else .error (.outOfRange v)
    | .error cause => .error (.tooManyDigits cause)
  | some (.binary digits) => ((Literal.binaryByte digits).map (·, none)).mapError .literal
  | some (.hex digits) => (Literal.hexByte digits).mapError .literal
  | none => .error (.notNumber token)

/-- The address that a text writes, and what is logged about it. -/
def read (text : String) : Except AddressError Int × List LogRecord :=
  match ofToken (String.ofList (Text.trim text.toList)) with
  | .ok (address, warning) =>
    (.ok address, warning.toList.map fun w => ⟨.warning, .literals, w.message⟩)
  | .error cause => (.error cause, [])

end Address

end Subleq
