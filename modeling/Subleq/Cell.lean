import Subleq.Byte
import Subleq.Text.Digit
import Subleq.Text.Field

/-!
# Subleq.Cell — program cells

A cell of the program store either loads an immediate value or subtracts and branches. On an image
it is a row of 25 bits, a tag and three fields of eight bits:

| tag | A | B | C |
|---|---|---|---|
| 0 | subtrahend | minuend and result | branch target |
| 1 | signed immediate | destination | successor |

A cell of zeros only is empty: the machine passes it by.
-/

namespace Subleq

/-- A program cell. Its fields are any integers; they are cut to eight bits only when the cell is
written as bits. -/
inductive Cell where
  /-- Stores `value` at `dest` and goes on at `next`. -/
  | load (value dest next : Int)
  /-- Subtracts what is at `a` from what is at `b`, and goes on at `target` unless the result is
  positive. -/
  | subleq (a b target : Int)
deriving Repr, DecidableEq

namespace Cell

/-- The cell of zeros. -/
def empty : Cell := .subleq 0 0 0

/-- The cell is a load. -/
def isLoad : Cell → Bool
  | .load .. => true
  | .subleq .. => false

/-- The cell is the cell of zeros. -/
def isEmpty (c : Cell) : Bool := c == empty

@[simp] theorem isEmpty_iff {c : Cell} : c.isEmpty = true ↔ c = empty := by
  simp [isEmpty]

@[simp] theorem isEmpty_load (value dest next : Int) : (load value dest next).isEmpty = false := rfl

/-! ## Bits -/

/-- The number of bits of a cell. -/
def width : Nat := 25

/-- The bits of a cell: the tag and the low eight bits of each field. -/
def encode : Cell → String
  | .load value dest next => "1" ++ Byte.bits value 8 ++ Byte.bits dest 8 ++ Byte.bits next 8
  | .subleq a b target => "0" ++ Byte.bits a 8 ++ Byte.bits b 8 ++ Byte.bits target 8

/-- Why a text is not the bits of a cell. -/
inductive DecodeError where
  | length (count : Nat)
  | notBinary (text : String)
deriving Repr, DecidableEq

def DecodeError.message : DecodeError → String
  | .length count => s!"expected {width} data bits, got {count}"
  | .notBinary text => s!"non-binary data field: '{text}'"

/-- The number in the row of eight digits that starts at the given place. -/
def byteAt (digits : List Nat) (start : Nat) : Int :=
  Text.ofDigits 2 ((digits.drop start).take 8)

/-- The cell that a row of bits stands for. -/
def decode (text : String) : Except DecodeError Cell :=
  let cs := text.toList
  if cs.length ≠ width then .error (.length cs.length)
  else
    match cs.mapM Text.bitValue? with
    | none => .error (.notBinary text)
    | some digits =>
      let a := byteAt digits 1
      let b := byteAt digits 9
      let c := byteAt digits 17
      if digits.head? = some 1 then .ok (.load (Byte.decode a) b c) else .ok (.subleq a b c)

/-! ## Text -/

/-- A cell in words, its numbers in fields that widen where they have to. -/
def disassemble : Cell → Except Text.TooManyDigits String
  | .load value dest next => do
    return s!"loadim {← Text.field 6 value}, m({← Text.field 3 dest}), {← Text.field 3 next}"
  | .subleq a b target => do
    return s!"subleq m({← Text.field 3 a}), m({← Text.field 3 b}), {← Text.field 3 target}"

end Cell

end Subleq
