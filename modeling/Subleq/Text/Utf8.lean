/-!
# Subleq.Text.Utf8 — UTF-8

Files are read as UTF-8, and a file that is not valid is refused as a whole. The reader is a
machine that takes one octet at a time; between the octets of a character it knows which octets
may come next. A refusal says which octets could not be read and why.
-/

namespace Subleq.Text.Utf8

/-- Why octets are no UTF-8. -/
inductive Reason where
  | invalidStart
  | invalidContinuation
  | unexpectedEnd
deriving Repr, DecidableEq

def Reason.message : Reason → String
  | .invalidStart => "invalid start byte"
  | .invalidContinuation => "invalid continuation byte"
  | .unexpectedEnd => "unexpected end of data"

/-- The octets at offsets `first` to `last`, the first of which is `lead`, cannot be read. -/
structure Fault where
  first : Nat
  last : Nat
  lead : UInt8
  reason : Reason
deriving Repr, DecidableEq

/-- One octet in two hexadecimal digits. -/
def hexOctet (b : UInt8) : String :=
  String.ofList [Nat.digitChar (b.toNat / 16), Nat.digitChar (b.toNat % 16)]

def Fault.message (f : Fault) : String :=
  let what :=
    if f.first = f.last then s!"byte 0x{hexOctet f.lead} in position {f.first}"
    else s!"bytes in position {f.first}-{f.last}"
  s!"'utf-8' codec can't decode {what}: {f.reason.message}"

/-- A character of which some octets have been read: where and how it began, the bits so far, how
many octets are owed and between which bounds the next one lies. -/
structure Pending where
  start : Nat
  lead : UInt8
  bits : Nat
  owed : Nat
  low : UInt8
  high : UInt8
deriving Repr, DecidableEq

/-- What the first octet of a character of several octets announces. -/
def Pending.ofLead? (start : Nat) (b : UInt8) : Option Pending :=
  if b < 0xC2 then none
  else if b < 0xE0 then some ⟨start, b, b.toNat % 32, 1, 0x80, 0xBF⟩
  else if b = 0xE0 then some ⟨start, b, 0, 2, 0xA0, 0xBF⟩
  else if b = 0xED then some ⟨start, b, 13, 2, 0x80, 0x9F⟩
  else if b < 0xF0 then some ⟨start, b, b.toNat % 16, 2, 0x80, 0xBF⟩
  else if b = 0xF0 then some ⟨start, b, 0, 3, 0x90, 0xBF⟩
  else if b < 0xF4 then some ⟨start, b, b.toNat % 8, 3, 0x80, 0xBF⟩
  else if b = 0xF4 then some ⟨start, b, 4, 3, 0x80, 0x8F⟩
  else none

/-- Reads the octets from the offset on, with the character that is under way. -/
def decodeFrom (offset : Nat) : Option Pending → List UInt8 → Except Fault (List Char)
  | none, [] => .ok []
  | some p, [] => .error ⟨p.start, offset - 1, p.lead, .unexpectedEnd⟩
  | none, b :: bs =>
    if b < 0x80 then
      (decodeFrom (offset + 1) none bs).map (Char.ofNat b.toNat :: ·)
    else
      match Pending.ofLead? offset b with
      | none => .error ⟨offset, offset, b, .invalidStart⟩
      | some p => decodeFrom (offset + 1) (some p) bs
  | some p, b :: bs =>
    if p.low ≤ b ∧ b ≤ p.high then
      let bits := p.bits * 64 + b.toNat % 64
      if p.owed = 1 then
        (decodeFrom (offset + 1) none bs).map (Char.ofNat bits :: ·)
      else
        decodeFrom (offset + 1) (some { p with bits, owed := p.owed - 1, low := 0x80, high := 0xBF }) bs
    else
      .error ⟨p.start, offset - 1, p.lead, .invalidContinuation⟩

/-- The characters that the octets write. -/
def decode (bs : List UInt8) : Except Fault (List Char) := decodeFrom 0 none bs

end Subleq.Text.Utf8
