import Subleq.AddressMap
import Subleq.Cell
import Subleq.Text.Lines

/-!
# Subleq.Program — the program store

A program store holds cells at some addresses; everywhere else it is empty. The dump lists the
cells that are not empty; there is none where a number in it is too long to be written.
-/

namespace Subleq

/-- The program store. -/
abbrev Program : Type := AddressMap Cell

namespace Program

/-- The cell at an address, empty where the store has none. -/
def fetch (p : Program) (address : Int) : Cell := p[address]?.getD Cell.empty

/-- The addresses of the cells that are not empty, with the cells, in increasing order. -/
def populated (p : Program) : List (Int × Cell) :=
  p.toList.filter fun (_, cell) => !cell.isEmpty

/-- The line of a cell in a dump. -/
def dumpLine (address : Int) (cell : Cell) : Except Text.TooManyDigits String := do
  return s!"Addr: {← Text.field 3 address} Instr: {← cell.disassemble}"

/-- One line for every cell that is not empty. -/
def dump (p : Program) : Except Text.TooManyDigits String := do
  let lines ← p.populated.mapM fun (address, cell) => dumpLine address cell
  return Text.joinLines lines

theorem fetch_insert (p : Program) (k a : Int) (c : Cell) :
    fetch (p.insert k c) a = if k = a then c else p.fetch a := by
  simp only [fetch, AddressMap.get?_insert]
  split <;> rfl

end Program

end Subleq
