import Subleq.Failure
import Subleq.Machine.Tracer
import Subleq.Session
import Subleq.Terminal

/-!
# Subleq.Shell — the surroundings of a command

A command works on files, on the lines of the terminal, and on one machine. What it prints, what it
reports and how it changes the files and the machine is all in the state that it leaves behind,
also when it fails.
-/

namespace Subleq

/-- The surroundings of a command. -/
structure Shell where
  files : Files := {}
  /-- The lines of the terminal that have not been read. -/
  input : List Terminal.Line := []
  /-- A line was wanted when there was none left. -/
  starved : Bool := false
  output : String := ""
  errors : String := ""
  /-- Records of less importance are not shown on the error channel. -/
  threshold : Log.Level := .warning
  /-- The file that takes all records. -/
  logFile : Option String := none
  machine : Machine := {}
  /-- The machine reads numbers from the terminal and shows them there. -/
  attached : Bool := true
  /-- The number of instructions after which a run without a limit is given up. -/
  patience : Int := 1000000000000

/-- How many instructions a run may take. -/
inductive StepLimit where
  | unlimited
  | steps (count : Int)
  /-- A limit is set but has no number, which is noticed when the limit is first looked at. -/
  | missing
deriving Repr, DecidableEq

namespace StepLimit

/-- The number of instructions, if the limit is a number. -/
def count? : StepLimit → Option Int
  | steps count => some count
  | unlimited | missing => none

/-- The number of instructions after which a run is looked at. -/
def bound (patience : Int) : StepLimit → Int
  | unlimited => patience
  | steps count => count
  | missing => 0

end StepLimit

/-- Work in a shell, which may fail. -/
abbrev Work : Type → Type := ExceptT Failure (StateM Shell)

namespace Work

/-- The result of the work and the shell after it. -/
def outcome {α : Type} (work : Work α) (sh : Shell) : Except Failure α × Shell := work.run sh

/-- A value that the command line should have. -/
def given {α : Type} (what : Missing) : Option α → Work α
  | some a => pure a
  | none => throw (.missing what)

/-- Turns a result into work, its error into a failure. -/
def ofExcept {ε α : Type} (failure : ε → Failure) : Except ε α → Work α
  | .ok a => pure a
  | .error e => throw (failure e)

/-! ## Channels -/

/-- Prints a text. -/
def print (text : String) : Work Unit :=
  modify fun sh => { sh with output := sh.output ++ text }

/-- Prints a line. -/
def printLine (text : String) : Work Unit := print s!"{text}\n"

/-- A text that is to be shown. -/
def text : Except Text.TooManyDigits String → Work String := ofExcept .tooManyDigits

/-- Writes a line to the error channel. -/
def errorLine (text : String) : Work Unit :=
  modify fun sh => { sh with errors := s!"{sh.errors}{text}\n" }

/-- Reports a record: on the error channel if it is important enough, and to the log file. -/
def log (r : LogRecord) : Work Unit := do
  let sh ← get
  if sh.threshold.rank ≤ r.level.rank then
    modify fun sh => { sh with errors := sh.errors ++ r.briefLine }
  if let some path := sh.logFile then
    let files ← ofExcept .file (sh.files.append path r.fullLine)
    modify fun sh => { sh with files }

/-- Opens a log file: it is made, with the directories above it, before anything is reported. The
directories are made as the path names them; the file is then known by the path in which every `..`
is carried out. -/
def openLog (path : String) : Work Unit := do
  let path := Path.clean path
  let files ← ofExcept .file ((← get).files.makeDirectories (Path.parent path))
  modify fun sh => { sh with files }
  let path := Path.normal path
  let files ← ofExcept .file (files.append path "")
  modify fun sh => { sh with files, logFile := some path }

/-! ## Files -/

/-- The text of a file. -/
def readText (path : String) : Work String := do
  let content ← ofExcept .file ((← get).files.read path)
  ofExcept .encoding content.read

/-- Writes a text to a file. -/
def writeText (path text : String) : Work Unit := do
  let files ← ofExcept .file ((← get).files.write path text)
  modify fun sh => { sh with files }

/-- The program store that an image file holds. -/
def readImage (path : String) : Work Program := do
  let text ← readText (Path.clean path)
  let program ← ofExcept .image (Image.read text)
  log ⟨.info, .images, s!"loaded {program.size} records from {path}"⟩
  return program

/-- Compiles a source text and reports what the compiler logs. -/
def compile (source : String) : Work Session := do
  let (session, failure) := Session.compile {} source
  session.log.forM log
  match failure with
  | some cause => throw (.tooManyDigits cause)
  | none => return session

/-- The program store for a path: an image's, or that of the source it names. -/
def readProgram (path : String) : Work Program := do
  if Path.ending path = ".mif" then readImage path
  else return (← compile (← readText path)).program

/-- Compiles a source file into an image, which is written to a file where one is named. -/
def compileFile (source : String) (target : Option String) : Work String := do
  let session ← compile (← readText (Path.clean source))
  let image := Image.render session.program
  if let some path := target then writeText path image
  return image

/-! ## The machine -/

/-- Lets the machine work. If it is attached to the terminal, its port takes the lines of the
terminal and what it does is shown there. -/
def withPort {α : Type} (act : Machine → α × Machine) : Work α := do
  let sh ← get
  if sh.attached then
    let port : Memory :=
      { sh.machine.memory with
        input := some (Terminal.input sh.input), output := some Layout.ioPortName, events := [] }
    let (a, m) := act { sh.machine with memory := port }
    let shown := m.memory.history.map Terminal.display
    let taken := (m.memory.input.map (·.taken)).getD 0
    set { sh with
      machine := m
      output := sh.output ++ String.join shown
      input := Terminal.after sh.input taken
      starved := sh.starved || m.memory.events.any Terminal.isEnd }
    return a
  else
    let (a, m) := act sh.machine
    set { sh with machine := m }
    return a

/-- Runs the machine, traced or not. Without a limit it is given up when patience runs out. The trace
is part of the answer. -/
def runTraced (tracing : Bool) (limit : StepLimit) : Work (StopReason × Trace) := do
  let patience := (← get).patience
  let (result, trace) ← withPort fun m =>
    let (result, t) := Tracer.run { machine := m, tracing } (limit.bound patience)
    ((result, t.trace), t.machine)
  match limit, result with
  | .unlimited, .ok .stepLimit => throw .unending
  | .missing, .ok .stepLimit => throw (.missing .limit)
  | _, _ =>
    (Machine.runLog limit.count? (result, (← get).machine)).forM log
    return (← ofExcept .fault result, trace)

/-- Runs the machine. -/
def run (limit : StepLimit) : Work StopReason := return (← runTraced false limit).1

/-- Executes the loads that the program begins with, and counts them. -/
def preload : Work Nat := do
  let count ← withPort fun m =>
    match m.preload with
    | some (count, m) => (some count, m)
    | none => (none, m)
  match count with
  | some count =>
    (Machine.preloadLog count).forM log
    return count
  | none => throw .unending

/-- Puts a program into the machine. -/
def install (program : Program) : Work Unit :=
  modify fun sh => { sh with machine := sh.machine.loadProgram program }

end Work

end Subleq
