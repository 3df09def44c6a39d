/-!
# Subleq.Layout — reserved cells

The data store has 256 cells. The last six are reserved: the port, two constants and three scratch
cells. Variables are allotted downwards from the cell below them. In the program store a cell has
to be able to name its successor in eight bits, so 254 is the last address that holds code.
-/

namespace Subleq.Layout

/-- The port: reading it takes input, writing it gives output. -/
def ioPort : Int := 255

/-- Holds the constant -1. -/
def negOne : Int := 254

/-- Scratch cells, which no statement relies on when it begins. -/
def tempA : Int := 253

@[inherit_doc tempA] def tempB : Int := 252

@[inherit_doc tempA] def tempC : Int := 251

/-- Holds 0 whenever a statement begins. -/
def zero : Int := 250

/-- The first variable's cell. -/
def heapStart : Int := 249

/-- The number of variables a program may define. -/
def maxVariables : Int := 100

/-- The first program address that may not hold code. -/
def programLimit : Int := 255

/-- The name under which programs use the port. -/
def ioPortName : String := "ioPort"

end Subleq.Layout
