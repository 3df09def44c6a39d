import Subleq.Command

/-!
# Subleq.Console — the interactive console

At the console one machine is used through commands, one on a line. What goes wrong is told and the
console goes on, except where a file cannot be used at all or the input of the machine ends. Only
`load`, `compile`, `run` and `initram` change the machine.
-/

namespace Subleq.Console

open Work

/-- The image that `compile` makes. -/
def defaultImage : String := "compiled.mif"

def prompt : String := "Enter command or type \"commands\" to get a list of available commands: "

def welcome : String := "Welcome to the One Instruction Set Computer (OISC) emulator!"

def help : List String := [
  "Available commands:",
  "compile <filename>: compile specified file and load rom from the result",
  "load <filename>: load rom from specified file",
  "run: run program currently loaded to rom",
  "initram: initialize ram by running load instructions in rom",
  "ramdump: display current contents of ram",
  "romdump: display current contents of rom",
  "ramget <ram address>: get value stored in ram address",
  "romget <rom address>: get instruction stored in rom address",
  "quit: end application"]

/-- Refuses an empty file name. -/
def requireName (path : String) : Work Unit :=
  if path = "" then throw (.file ⟨.notFound, path⟩) else pure ()

/-- Loads an image. The old program is dropped before the image is read. -/
def load (path : String) : Work Unit := do
  requireName path
  printLine s!"Loading rom state from file {path}"
  install ∅
  try
    let program ← readImage path
    modify fun sh => { sh with machine := { sh.machine with program } }
    printLine s!"Finished loading rom state, {program.size} rom lines read."
  catch
    | .image cause =>
      printLine s!"File {path} not formatted correctly. Aborting load. ({cause.message})"
    | failure => throw failure

/-- Compiles a file and loads the image. -/
def compile (path : String) : Work Unit := do
  requireName path
  let _ ← compileFile path (some defaultImage)
  load defaultImage

/-- Runs the program. -/
def run : Work Unit := do
  printLine "Running program stored in rom."
  try
    let _ ← Work.run .unlimited
    let steps ← text (Text.written (← get).machine.steps)
    printLine s!"Done. {steps} instructions executed."
  catch failure =>
    match failure.kind with
    | .uninitialized => printLine s!"Execution fault: {failure.message}"
    | .interrupted =>
      printLine s!"Interrupted at pc {← text (Text.written (← get).machine.pc)}."
    | _ => throw failure

/-- Shows the data store. -/
def ramDump : Work Unit := do
  printLine "Displaying all loaded addresses in ram:"
  printLine (← text (← get).machine.memory.dump)
  printLine "Done."

/-- Shows the program store. -/
def romDump : Work Unit := do
  printLine "Displaying instructions stored in rom:"
  printLine (← text (← get).machine.program.dump)
  printLine "Done."

/-- Executes one command. The answer is whether the console goes on. -/
def perform (command argument : String) : Work Bool := do
  match command with
  | "commands" => printLine (Text.joinLines help)
  | "compile" => compile argument
  | "load" => load argument
  | "run" => run
  | "initram" =>
    let count ← preload
    printLine s!"Done. {count} load instructions read."
    ramDump
  | "romdump" => romDump
  | "ramdump" => ramDump
  | "romget" =>
    let address ← Command.readAddress argument
    printLine (← text (Command.romLine address ((← get).machine.fetch address)))
  | "ramget" =>
    let address ← Command.readAddress argument
    printLine (← text (Command.ramLine address ((← get).machine.memory.get? address)))
  | _ =>
    if Path.lowerAscii command.toList = "quit".toList then
      printLine "Goodbye!"
      return false
    printLine "Invalid command."
  return true

/-- Executes the command on a line; a blank line does nothing. A value that is not well formed and
a file that is not there are told. -/
def handle (line : String) : Work Bool := do
  let (command, argument) := Text.firstWord line.toList
  if command = [] then return true
  try
    perform (String.ofList command) (String.ofList (Text.trimEnd argument))
  catch failure =>
    match failure.kind with
    | .badValue =>
      printLine s!"Invalid address: {failure.message}"
      return true
    | .missingFile path =>
      printLine s!"Cannot find file: {path}"
      return true
    | _ => throw failure

/-- Handles lines in order until one ends the console. -/
def handleAll : List String → Work Unit
  | [] => pure ()
  | line :: lines => do
    if ← handle line then handleAll lines

/-- The console with the given lines as commands. -/
def session (lines : List String) : Work Unit := do
  printLine welcome
  handleAll lines

/-- Reads commands from the terminal, at most as many as given, until one ends the console or there
are no more lines. What is no text ends the console as well. -/
def readCommands : Nat → Work Unit
  | 0 => pure ()
  | n + 1 => do
    print prompt
    match (← get).input with
    | [] => modify fun sh => { sh with starved := true }
    | line :: lines =>
      modify fun sh => { sh with input := lines }
      match line with
      | .undecodable cause => throw (.encoding cause)
      | .text line => if ← handle line then readCommands n

/-- The console at the terminal. Each command takes at least its own line, so there are at most as
many as there are lines. -/
def loop : Work Unit := do
  printLine welcome
  readCommands ((← get).input.length + 1)

end Subleq.Console
