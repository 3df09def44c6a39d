import Subleq.Text.Printable

/-!
# Subleq.Text.Quoted — quoted names

File names in messages stand between quotes. The quotes are single ones unless the name holds a
single quote and no double one; whatever does not print is escaped.
-/

namespace Subleq.Text

/-- The lower-case hexadecimal digits of a number, filled up with zeros to the width. -/
def hexField (width n : Nat) : List Char :=
  let digits := Nat.toDigits 16 n
  List.replicate (width - digits.length) '0' ++ digits

/-- A character as it stands between the given quotes. -/
def quoteChar (quote c : Char) : List Char :=
  if c = '\\' ∨ c = quote then ['\\', c]
  else if c = '\n' then ['\\', 'n']
  else if c = '\r' then ['\\', 'r']
  else if c = '\t' then ['\\', 't']
  else if isPrintable c then [c]
  else if c.toNat < 0x100 then ['\\', 'x'] ++ hexField 2 c.toNat
  else if c.toNat < 0x10000 then ['\\', 'u'] ++ hexField 4 c.toNat
  else ['\\', 'U'] ++ hexField 8 c.toNat

/-- A name between quotes. -/
def quoted (s : String) : String :=
  let cs := s.toList
  let quote := if cs.contains '\'' && !cs.contains '"' then '"' else '\''
  String.ofList (quote :: cs.flatMap (quoteChar quote) ++ [quote])

end Subleq.Text
