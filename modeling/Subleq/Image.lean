import Subleq.Program
import Subleq.Text.Lines

/-!
# Subleq.Image — memory images

An image is the text of a whole program store: a header that declares its shape, one record
`address : bits ;` for each of the 256 addresses, and a closing line. `render` writes it;
`Subleq.Image.Reader` reads it.
-/

namespace Subleq.Image

/-- The number of records. -/
def depth : Nat := 256

/-- The number of bits in the address of a record. -/
def addressWidth : Nat := 8

/-- The declarations that an image makes about its shape. -/
def declarations : List (String × String) :=
  [("DEPTH", toString depth), ("WIDTH", toString Cell.width), ("ADDRESS_RADIX", "BIN"),
    ("DATA_RADIX", "BIN")]

/-- The line after which the records begin. -/
def beginLine : String := "BEGIN"

/-- The line after which nothing counts. -/
def endLine : String := "END;"

/-- The lines before the records. -/
def header : List String :=
  declarations.map (fun (key, value) => s!"{key} = {value};") ++ ["CONTENT", beginLine]

/-- The record of one cell. -/
def record (address : Int) (cell : Cell) : String :=
  s!"{Byte.bits address addressWidth} : {cell.encode} ;"

/-- The addresses of an image in increasing order. -/
def addresses : List Int := (List.range depth).map fun (n : Nat) => (n : Int)

/-- The image of a program store. Cells at addresses that an image does not have are left out. -/
def render (p : Program) : String :=
  Text.unlines (header ++ addresses.map (fun a => record a (p.fetch a)) ++ [endLine])

end Subleq.Image
