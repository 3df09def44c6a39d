import Subleq.Text.Blank
import Subleq.Text.Digit

/-!
# Subleq.Text.Numeral — numerals

Decimal numerals as they are written in source text, at the terminal and on the command line. A
numeral keeps its digits, so that the limit on their number can be told apart from the value. The
limit holds in both directions: a numeral of more digits is not converted to a number, and a number
of more digits is not written.
-/

namespace Subleq.Text

/-- A decimal numeral: whether a minus stands before it, and its digits from the first on. -/
structure Decimal where
  negative : Bool
  digits : List Nat
deriving Repr, DecidableEq

/-- More digits than are converted. -/
inductive TooManyDigits where
  /-- A numeral of so many digits is to be read. -/
  | numeral (count : Nat)
  /-- A number is to be written. -/
  | number
deriving Repr, DecidableEq

/-- The greatest number of digits that is converted; leading zeros count. -/
def digitLimit : Nat := 4300

def TooManyDigits.message (e : TooManyDigits) : String :=
  let value := match e with
    | .numeral count => s!": value has {count} digits"
    | .number => ""
  s!"Exceeds the limit ({digitLimit} digits) for integer string conversion{value}; " ++
    "use sys.set_int_max_str_digits() to increase the limit"

/-- A text without the line feed that may end it. -/
def dropFinalNewline : List Char → List Char
  | [] => []
  | c :: cs => if c = '\n' ∧ cs = [] then [] else c :: dropFinalNewline cs

/-- A numeral of the given digits, of which there has to be one. -/
def Decimal.ofDigits? (negative : Bool) : List Nat → Option Decimal
  | [] => none
  | d :: ds => some ⟨negative, d :: ds⟩

namespace Decimal

/-- The numeral that a text is: an optional minus and digits of any script. One line feed may
follow. -/
def parse? (cs : List Char) : Option Decimal :=
  match dropFinalNewline cs with
  | '-' :: cs => (digitValues? cs).bind (ofDigits? true)
  | cs => (digitValues? cs).bind (ofDigits? false)

/-- The number written, whatever the number of digits. -/
def number (d : Decimal) : Int :=
  if d.negative then -(ofDigits 10 d.digits : Int) else ofDigits 10 d.digits

/-- The number written, if it has no more digits than are converted. -/
def value (d : Decimal) : Except TooManyDigits Int :=
  if digitLimit < d.digits.length then .error (.numeral d.digits.length) else .ok d.number

theorem value_eq_ok_iff {d : Decimal} {v : Int} :
    d.value = .ok v ↔ d.digits.length ≤ digitLimit ∧ d.number = v := by
  unfold value
  split <;> simp <;> omega

/-! ## Free form

A numeral on the command line may have blanks around it, a sign of either kind, and single
underscores between its digits.
-/

/-- The blanks around a numeral in free form: all but the information separators. -/
def isMargin (c : Char) : Bool := isBlank c && !(28 ≤ c.toNat && c.toNat ≤ 31)

/-- Digits with single underscores between them. -/
def groupedDigits? : List Char → Option (List Nat)
  | [] => none
  | [c] => (digitValue? c).map ([·])
  | c :: '_' :: cs => do
    let d ← digitValue? c
    let ds ← groupedDigits? cs
    return d :: ds
  | c :: cs => do
    let d ← digitValue? c
    let ds ← groupedDigits? cs
    return d :: ds

/-- The numeral that a text in free form is. -/
def parseFree? (cs : List Char) : Option Decimal :=
  let body := ((cs.dropWhile isMargin).reverse.dropWhile isMargin).reverse
  match body with
  | '-' :: cs => (groupedDigits? cs).map (⟨true, ·⟩)
  | '+' :: cs => (groupedDigits? cs).map (⟨false, ·⟩)
  | cs => (groupedDigits? cs).map (⟨false, ·⟩)

end Decimal

/-! ## Writing numbers -/

/-- The least number with too many digits. It is irreducible lest it be computed where definitions are
compared. -/
@[irreducible] def numberLimit : Nat := Nat.pow 10 digitLimit

theorem numberLimit_eq : numberLimit = Nat.pow 10 digitLimit := by
  unfold numberLimit
  rfl

/-- The number has no more digits than are converted. -/
def IsWritable (n : Int) : Prop := n.natAbs < numberLimit

instance (n : Int) : Decidable (IsWritable n) :=
  inferInstanceAs (Decidable (n.natAbs < numberLimit))

/-- The decimal numeral of a number, if it is not too long. -/
def written (n : Int) : Except TooManyDigits String :=
  if IsWritable n then .ok (toString n) else .error .number

theorem written_of_isWritable {n : Int} (h : IsWritable n) : written n = .ok (toString n) := if_pos h

theorem written_of_not_isWritable {n : Int} (h : ¬IsWritable n) : written n = .error .number :=
  if_neg h

/-- The numbers of up to three digits are far below the limit. -/
theorem isWritable_of_lt {n : Int} (hlow : -1000 < n) (hhigh : n < 1000) : IsWritable n := by
  have hpow : ∀ k, 3 ≤ k → 1000 ≤ Nat.pow 10 k := fun k hk =>
    Nat.pow_le_pow_right (n := 10) (by decide) hk
  calc n.natAbs < 1000 := by omega
    _ ≤ Nat.pow 10 digitLimit := hpow digitLimit (by decide)
    _ = numberLimit := numberLimit_eq.symm

/-- The text is a decimal numeral. -/
def isDecimal (s : String) : Bool := (Decimal.parse? s.toList).isSome

end Subleq.Text
