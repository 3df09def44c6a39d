import Subleq.Byte
import Subleq.Diagnostic

/-!
# Subleq.Operand — resolving operands

The operands of a line are resolved from left to right. On the way a warning may be noted; the
first operand that has no address ends the work on the line.
-/

namespace Subleq

/-- Why the work on a line ends early. -/
inductive Obstacle where
  /-- The line is reported and compiling goes on with the next one. -/
  | issue (cause : Issue)
  /-- A number is too long to be converted, in an operand or in the text of an issue. This ends the
  whole compilation. -/
  | tooManyDigits (cause : Text.TooManyDigits)
deriving Repr, DecidableEq

/-- The obstacle that an issue is. Its text is made as soon as it is met. -/
def Issue.obstacle (cause : Issue) : Obstacle :=
  if cause.IsWritable then .issue cause else .tooManyDigits .number

/-- Work on a line, which notes warnings and may meet an obstacle. -/
abbrev LineWork : Type → Type := ExceptT Obstacle (StateM (List Issue))

namespace LineWork

/-- Notes a warning. -/
def warn (cause : Issue) : LineWork Unit := modify (· ++ [cause])

/-- Ends the work on the line with an issue. -/
def reject {α : Type} (cause : Issue) : LineWork α := throw cause.obstacle

/-- The value of a decimal numeral. -/
def decimal (numeral : Text.Decimal) : LineWork Int :=
  match numeral.value with
  | .ok v => pure v
  | .error cause => throw (.tooManyDigits cause)

/-- The result of the work and the warnings noted. -/
def outcome {α : Type} (work : LineWork α) : Except Obstacle α × List Issue := work.run []

end LineWork

namespace SymbolTable

open LineWork

/-- The address of an operand: a number saturated or cut to eight bits, or the cell of a name. -/
def address (t : SymbolTable) (token : String) : LineWork Int :=
  match Literal.ofToken? token with
  | some (.decimal numeral) => return Byte.unsigned (← decimal numeral)
  | some (.binary digits) =>
    match Literal.binaryByte digits with
    | .ok v => pure v
    | .error cause => reject (.literal cause)
  | some (.hex digits) =>
    match Literal.hexByte digits with
    | .ok (v, none) => pure v
    | .ok (v, some cause) => do
      warn (.hexLength cause)
      return v
    | .error cause => reject (.literal cause)
  | none =>
    match t.lookup? token with
    | some a => pure a
    | none => reject (.unknownVariable token)

/-- The pattern of a defined value. Decimal numbers are signed here; any other operand gives its
address. -/
def value (t : SymbolTable) (token : String) : LineWork Int :=
  match Literal.ofToken? token with
  | some (.decimal numeral) => return Byte.signed (← decimal numeral)
  | _ => t.address token

end SymbolTable

end Subleq
