import Subleq.Shell

/-!
# Subleq.Command — the commands of the toolkit

Each command works on one file: it compiles it, or loads or compiles it into the machine and shows
what it holds or what it does.
-/

namespace Subleq

/-- A command with its arguments. A target or an address can be named without a value; that matters
only when the value is wanted. -/
inductive Command where
  | compile (source : String) (target : Option String)
  | run (path : String) (limit : StepLimit) (trace dump : Bool)
  | initRam (path : String)
  | romDump (path : String)
  | romGet (path : String) (address : Option String)
  | ramGet (path : String) (address : Option String) (preload : Bool) (limit : StepLimit)
deriving Repr, DecidableEq

namespace Command

open Work

/-- An address given as text. -/
def readAddress (text : String) : Work Int := do
  let (result, records) := Address.read text
  records.forM log
  ofExcept .address result

/-- The cell at an address of the program store, as it is shown. -/
def romLine (address : Int) (cell : Cell) : Except Text.TooManyDigits String := do
  return s!"Addr: {← Text.field 3 address} {← cell.disassemble}"

/-- The value at an address of the data store, as it is shown. -/
def ramLine (address : Int) (value : Option Int) : Except Text.TooManyDigits String := do
  let shown ← match value with
    | some v => Text.field 3 v
    | none => pure "uninitialized"
  return s!"Addr: {← Text.field 3 address} Value: {shown}"

/-- Tells how a run has stopped. -/
def tellStop (m : Machine) (reason : StopReason) : Work Unit := do
  let steps ← text (Text.written m.steps)
  match reason with
  | .stepLimit =>
    printLine s!"Stopped at step limit ({steps} instructions, pc {← text (Text.written m.pc)})."
  | .halt => printLine s!"Done. {steps} instructions executed."

/-- Does what the command says. -/
def perform : Command → Work Unit
  | compile source target => do
    let _ ← compileFile source target
    printLine s!"Compiled {source} -> {← given .target target}"
  | run path limit trace dump => do
    install (← readProgram path)
    let (reason, lines) ← runTraced trace limit
    let m := (← get).machine
    if trace then printLine (Text.joinLines lines.toList)
    tellStop m reason
    if dump then printLine (← text m.memory.dump)
  | initRam path => do
    install (← readProgram path)
    let count ← preload
    printLine s!"Done. {count} load instructions read."
    printLine (← text (← get).machine.memory.dump)
  | romDump path => do
    printLine (← text (← readProgram path).dump)
  | romGet path word => do
    let program ← readProgram path
    let address ← readAddress (← given .address word)
    printLine (← text (romLine address (program.fetch address)))
  | ramGet path word onlyLoads limit => do
    let address ← readAddress (← given .address word)
    install (← readProgram path)
    if onlyLoads then
      let _ ← preload
    else
      let _ ← Work.run limit
    printLine (← text (ramLine address ((← get).machine.memory.get? address)))

end Command

end Subleq
