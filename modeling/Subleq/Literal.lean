import Subleq.Text.Numeral

/-!
# Subleq.Literal — literal operands

An operand that is not a name is a number in one of three forms: decimal, binary after `#`, or
hexadecimal after `$`. Of a binary or hexadecimal number the low eight bits count. Exactly two
hexadecimal digits are expected; any other number of them is taken with a warning.
-/

namespace Subleq

/-- What stands before binary digits. -/
def binaryMark : Char := '#'

/-- What stands before hexadecimal digits. -/
def hexMark : Char := '$'

/-- The literal forms, by the way a token begins. The digits are not checked yet. -/
inductive Literal where
  | decimal (numeral : Text.Decimal)
  | binary (digits : String)
  | hex (digits : String)
deriving Repr, DecidableEq

/-- Digits that the base does not have, or none at all. -/
inductive LiteralError where
  | binary (digits : String)
  | hex (digits : String)
deriving Repr, DecidableEq

def LiteralError.message : LiteralError → String
  | .binary digits => s!"invalid binary literal: '{binaryMark}{digits}'"
  | .hex digits => s!"invalid hex literal: '{hexMark}{digits}'"

/-- A hexadecimal literal that does not have two digits. -/
inductive HexWarning where
  | tooLong (digits : String)
  | tooShort (digits : String)
deriving Repr, DecidableEq

def HexWarning.message : HexWarning → String
  | .tooLong digits => s!"hex literal '{hexMark}{digits}' too long, high digits discarded"
  | .tooShort digits => s!"hex literal '{hexMark}{digits}' too short, leading zeros added"

namespace Literal

/-- The literal form of a token, if it has one; any other token is a name. -/
def ofToken? (token : String) : Option Literal :=
  match Text.Decimal.parse? token.toList with
  | some numeral => some (.decimal numeral)
  | none =>
    match token.toList with
    | c :: digits =>
      if c = binaryMark then some (.binary (String.ofList digits))
      else if c = hexMark then some (.hex (String.ofList digits))
      else none
    | [] => none

/-- The last digits of a row. -/
def lastDigits (count : Nat) (digits : List Nat) : List Nat :=
  digits.drop (digits.length - count)

/-- The low eight bits of a binary number. -/
def binaryByte (digits : String) : Except LiteralError Int :=
  match digits.toList.mapM Text.bitValue? with
  | none | some [] => .error (.binary digits)
  | some ds => .ok (Text.ofDigits 2 (lastDigits 8 ds))

/-- The low eight bits of a hexadecimal number, and what is unusual about it. -/
def hexByte (digits : String) : Except LiteralError (Int × Option HexWarning) :=
  match digits.toList.mapM Text.hexDigitValue? with
  | none | some [] => .error (.hex digits)
  | some ds =>
    let warning :=
      if 2 < ds.length then some (.tooLong digits)
      else if ds.length < 2 then some (.tooShort digits)
      else none
    .ok (Text.ofDigits 16 (lastDigits 2 ds), warning)

end Literal

/-- The token has one of the literal forms. -/
def isLiteral (token : String) : Bool := (Literal.ofToken? token).isSome

end Subleq
