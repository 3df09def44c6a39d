import Subleq.Machine.Run
import Subleq.Machine.Trace

/-!
# Subleq.Machine.Tracer — machines that are traced

While a machine is traced, each instruction is entered into the trace before it is executed. The line
that is entered shows the cell and where it stands. If a number in it is too long to be written, the
step faults, and the instruction is not executed.
-/

namespace Subleq

/-- An instruction and where it stands. -/
structure TraceEntry where
  pc : Int
  cell : Cell
deriving Repr, DecidableEq

/-- The line of an instruction in a trace. -/
def TraceEntry.render (e : TraceEntry) : Except Text.TooManyDigits String := do
  return s!"{← Text.field 3 e.pc}: {← e.cell.disassemble}"

/-- The instruction that the next step begins to execute: none if the machine has halted or passes by
an empty cell. -/
def Machine.next? (m : Machine) : Option TraceEntry :=
  let cell := m.fetch m.pc
  if m.isHalted ∨ cell.isEmpty then none else some ⟨m.pc, cell⟩

/-- A machine with a trace. -/
structure Tracer where
  machine : Machine := {}
  /-- Whether instructions are entered into the trace. -/
  tracing : Bool := false
  trace : Trace := {}

namespace Tracer

/-- Goes back to the first cell, and forgets the trace. -/
def reset (t : Tracer) : Tracer := { t with machine := t.machine.reset, trace := {} }

/-- Lets the machine make a step. -/
def advance (t : Tracer) : StepOutcome × Tracer :=
  (t.machine.step.1, { t with machine := t.machine.step.2 })

/-- One step. -/
def step (t : Tracer) : StepOutcome × Tracer :=
  match if t.tracing then t.machine.next? else none with
  | none => t.advance
  | some entry =>
    match entry.render with
    | .ok line => { t with trace := t.trace.push line }.advance
    | .error _ => (.faulted .unwritable, { t with machine := { t.machine with state := .running } })

/-! ## Runs -/

/-- Passes by empty cells. -/
def skipEmpty (t : Tracer) : Tracer := { t with machine := t.machine.skipEmpty }

/-- Runs the program from the start, as `Machine.run` does. -/
def run (t : Tracer) (limit : Int) : Except Fault StopReason × Tracer :=
  if 1 ≤ limit then repeatStep (fun t => t.skipEmpty.step) limit.toNat t.reset
  else repeatStep step 1 t.reset

end Tracer

end Subleq
