import Subleq.Memory
import Subleq.Program

/-!
# Subleq.Machine — one step of the machine

The machine has a program store, which does not change while it runs, and a data store. A step
executes the cell at the program counter:

1. an empty cell is passed by and does not count as an instruction;
2. a load stores its immediate value and goes on at its successor;
3. a subtraction reads its two operands, writes the folded difference to the second one and
   branches unless the difference is positive.

The machine halts when the program counter is 256 or more. A read that fails ends the step before
anything is written; the program counter stays at the instruction. What the machine has executed can
be traced; that is the matter of `Subleq.Machine.Tracer`.
-/

namespace Subleq

/-- What the machine is doing. -/
inductive MachineState where
  | idle
  | running
  | halted
deriving Repr, DecidableEq

def MachineState.name : MachineState → String
  | .idle => "IDLE"
  | .running => "RUNNING"
  | .halted => "HALTED"

/-- Why an instruction cannot be executed. -/
inductive Fault where
  /-- An operand was never written. -/
  | uninitialized (address pc : Int)
  /-- The input misses a cell of its own, which is reported as a missing operand is. -/
  | relayed (address pc : Int)
  /-- The input gave no number for another reason. -/
  | input (cause : InputFault)
  /-- A number that is too long to be written was to be shown. -/
  | unwritable
deriving Repr, DecidableEq

namespace Fault

/-- The numbers in the text of a fault. -/
def numbers : Fault → List Int
  | uninitialized address pc | relayed address pc => [address, pc]
  | input _ | unwritable => []

/-- The text of a fault whose numbers can be written. -/
def message : Fault → String
  | uninitialized address pc | relayed address pc => s!"{uninitializedMessage address} at pc {pc}"
  | input cause => cause.message
  | unwritable => Text.TooManyDigits.number.message

/-- What a fault comes to: its text is made at once, and another fault takes its place if that is not
possible. -/
def raised (fault : Fault) : Fault :=
  if ∀ n ∈ fault.numbers, Text.IsWritable n then fault else unwritable

end Fault

namespace ReadFault

/-- What a failed read comes to in an instruction at an address. -/
def fault (pc : Int) : ReadFault → Fault
  | uninitialized address => (Fault.uninitialized address pc).raised
  | input (.uninitialized address) => (Fault.relayed address pc).raised
  | input cause => .input cause

/-- A cell is missing, to the machine or to its input. -/
def isMissing : ReadFault → Bool
  | uninitialized _ | input (.uninitialized _) => true
  | input _ => false

end ReadFault

/-- The machine. -/
structure Machine where
  program : Program := ∅
  memory : Memory := {}
  pc : Int := 0
  /-- The number of instructions executed. -/
  steps : Nat := 0
  state : MachineState := .idle

/-- How a step ends. -/
inductive StepOutcome where
  | running
  | halted
  | faulted (cause : Fault)
deriving Repr, DecidableEq

namespace Machine

/-- The first address at which the machine halts. -/
def maxPc : Int := 256

/-- A machine with a program, an input, and an output of the given name. -/
def ofProgram (program : Program) (input : Input) (output : String) : Machine :=
  { program, memory := { input := some input, output := some output } }

/-- Forgets stored values and goes back to the first cell. -/
def reset (m : Machine) : Machine :=
  { m with memory := m.memory.clear, pc := 0, steps := 0, state := .idle }

/-- Puts another program in place. -/
def loadProgram (m : Machine) (program : Program) : Machine := { m with program }.reset

/-- The program counter has left the program store. -/
def isHalted (m : Machine) : Bool := decide (maxPc ≤ m.pc)

/-- The cell at an address. -/
def fetch (m : Machine) (address : Int) : Cell := m.program.fetch address

/-! ## Executing a cell -/

/-- Executes a load. -/
def executeLoad (m : Machine) (value dest next : Int) : Machine :=
  { m with memory := m.memory.write dest value, pc := next }

/-- Executes a subtraction. The subtrahend is read first. -/
def executeSubleq (m : Machine) (a b target : Int) : Except ReadFault Unit × Machine :=
  match m.memory.read a with
  | (.error cause, memory) => (.error cause, { m with memory })
  | (.ok x, memory) =>
    match memory.read b with
    | (.error cause, memory) => (.error cause, { m with memory })
    | (.ok y, memory) =>
      let result := Byte.fold (y - x)
      (.ok (), { m with
        memory := memory.write b result
        pc := if result ≤ 0 then target else m.pc + 1 })

/-- Executes a cell that is not empty. -/
def execute (m : Machine) : Cell → Except ReadFault Unit × Machine
  | .load value dest next => (.ok (), m.executeLoad value dest next)
  | .subleq a b target => m.executeSubleq a b target

/-! ## Steps -/

/-- Notices that the machine has halted. -/
def settle (m : Machine) : StepOutcome × Machine :=
  if m.isHalted then (.halted, { m with state := .halted }) else (.running, m)

/-- How a step ends by what became of the instruction at an address. If a cell is missing, the machine
halts. -/
def conclude (pc : Int) : Except ReadFault Unit × Machine → StepOutcome × Machine
  | (.ok (), m) => { m with steps := m.steps + 1 }.settle
  | (.error cause, m) =>
    (.faulted (cause.fault pc), { m with state := if cause.isMissing then .halted else m.state })

/-- One step. -/
def step (m : Machine) : StepOutcome × Machine :=
  if m.isHalted then (.halted, { m with state := .halted })
  else
    let m := { m with state := .running }
    let cell := m.fetch m.pc
    if cell.isEmpty then { m with pc := m.pc + 1 }.settle
    else conclude m.pc (m.execute cell)

end Machine

end Subleq
