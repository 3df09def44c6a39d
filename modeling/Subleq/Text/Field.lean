import Subleq.Text.Numeral

/-!
# Subleq.Text.Field — fields of fixed width

Numbers in listings and dumps stand at the right end of a field; a number that is wider than its
field takes the room it needs, unless it is too long to be written at all.
-/

namespace Subleq.Text

/-- Blanks in front of a text until it fills the width. -/
def padStart (width : Nat) (s : String) : String :=
  String.ofList (List.replicate (width - s.length) ' ') ++ s

/-- A number at the right end of a field. -/
def field (width : Nat) (n : Int) : Except TooManyDigits String := (written n).map (padStart width)

end Subleq.Text
