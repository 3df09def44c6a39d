import Subleq.AddressMap
import Subleq.Input
import Subleq.Layout
import Subleq.Text.Field
import Subleq.Text.Lines

/-!
# Subleq.Memory — the data store

The data store has 256 cells, which exist once they are written; addresses are taken modulo 256.
One cell is the port. Where an input is installed, reading the port takes the input's next reply;
where an output is installed, writing the port hands the value to it; and nothing is stored. Any
write that is stored is shown to the watchers of its cell. What goes through the port and what the
watchers see is recorded as events.
-/

namespace Subleq

/-- What can be seen of the data store from outside. -/
inductive Event where
  /-- The input was asked and gave this reply. -/
  | asked (reply : Reply)
  /-- An output was handed a value. -/
  | output (name : String) (value : Int)
  /-- A watcher saw a cell change. -/
  | watched (name : String) (address : Int) (old : Option Int) (new : Int)

/-- Why a cell cannot be read. -/
inductive ReadFault where
  /-- The cell was never written. -/
  | uninitialized (address : Int)
  /-- The cell is the port, and the input gave no number. -/
  | input (cause : InputFault)
deriving Repr, DecidableEq

def ReadFault.message : ReadFault → String
  | .uninitialized address => uninitializedMessage address
  | .input cause => cause.message

/-- The data store with what is attached to it. Watchers stand in the order in which they were
added, events in the order from the last to the first. -/
structure Memory where
  cells : AddressMap Int := ∅
  portAddress : Int := Layout.ioPort
  input : Option Input := none
  output : Option String := none
  watchers : List (Int × String) := []
  events : List Event := []

namespace Memory

/-- The cell that an address names. -/
def cellOf (address : Int) : Int := address % 256

/-! ## Reading and writing -/

/-- Takes the next reply of an input. -/
def ask (m : Memory) (i : Input) : Except ReadFault Int × Memory :=
  (i.next.answer.mapError .input,
    { m with input := some i.advance, events := .asked i.next :: m.events })

/-- Reads a stored cell. -/
def readCell (m : Memory) (cell : Int) : Except ReadFault Int × Memory :=
  match m.cells[cell]? with
  | some v => (.ok v, m)
  | none => (.error (.uninitialized cell), m)

/-- Reads an address. -/
def read (m : Memory) (address : Int) : Except ReadFault Int × Memory :=
  match m.input with
  | some i => if cellOf address = m.portAddress then m.ask i else m.readCell (cellOf address)
  | none => m.readCell (cellOf address)

/-- What the watchers of a cell see when it gets a new value, from the last watcher to the
first. -/
def sightings (m : Memory) (cell new : Int) : List Event :=
  (m.watchers.filter (·.1 = cell)).reverse.map fun (_, name) =>
    .watched name cell m.cells[cell]? new

/-- Stores a value in a cell. -/
def writeCell (m : Memory) (cell value : Int) : Memory :=
  { m with cells := m.cells.insert cell value, events := m.sightings cell value ++ m.events }

/-- Writes to an address. -/
def write (m : Memory) (address value : Int) : Memory :=
  match m.output with
  | some name =>
    if cellOf address = m.portAddress then { m with events := .output name value :: m.events }
    else m.writeCell (cellOf address) value
  | none => m.writeCell (cellOf address) value

/-- Forgets all stored values. -/
def clear (m : Memory) : Memory := { m with cells := ∅ }

/-! ## Attachments -/

/-- Installs an input or an output or both; what is not given stays as it was. -/
def install (m : Memory) (input : Option Input) (output : Option String) : Memory :=
  { m with input := input <|> m.input, output := output <|> m.output }

/-- Adds a watcher of the cell that an address names. -/
def watch (m : Memory) (address : Int) (name : String) : Memory :=
  { m with watchers := m.watchers ++ [(cellOf address, name)] }

/-! ## Inspection -/

/-- The value of a stored cell. Looking at it touches neither input nor output. -/
def get? (m : Memory) (address : Int) : Option Int := m.cells[cellOf address]?

/-- The cell that the address names was written. -/
def isInitialized (m : Memory) (address : Int) : Bool := m.cells.contains (cellOf address)

/-- The stored cells in increasing order. -/
def items (m : Memory) : List (Int × Int) := m.cells.toList

/-- The number of stored cells. -/
def size (m : Memory) : Nat := m.cells.size

/-- The events so far, first to last. -/
def history (m : Memory) : List Event := m.events.reverse

/-- The memory with no events recorded. -/
def forgetEvents (m : Memory) : Memory := { m with events := [] }

/-- The line of a stored cell in a dump. -/
def dumpLine (address value : Int) : Except Text.TooManyDigits String := do
  return s!"Addr: {← Text.field 3 address} Val: {← Text.field 4 value}"

/-- One line for every stored cell. -/
def dump (m : Memory) : Except Text.TooManyDigits String := do
  let lines ← m.items.mapM fun (address, value) => dumpLine address value
  return Text.joinLines lines

end Memory

end Subleq
