import Subleq.CommandLine.Tool

/-!
# Subleq.CommandLine.Toolkit — the toolkit's command line

The toolkit has a command for each thing that can be done with a program, and the console. Bad data
of any kind ends a command with one line on the error channel and exit status 1.
-/

namespace Subleq.CommandLine.Toolkit

open Work

def grammar (release : Release) : Grammar where
  release
  options := [helpOption, versionOption, verboseOption, quietOption, logFileOption]
  arguments := []
  takesCommand := true

def tool : Tool := { name := "oisckit", usage := "usage: oisckit [options] command [arguments]" }

/-- What can be asked of the toolkit. -/
inductive Request where
  | command (c : Command)
  | console
deriving Repr, DecidableEq

/-- The command lines of the commands. -/
def commandGrammar? (release : Release) : String → Option Grammar
  | "compile" => some
    { release, options := [helpOption, ⟨["--output", "-o"], .value⟩], arguments := ["input"] }
  | "run" => some
    { release
      options := [helpOption, ⟨["--max-steps"], .number⟩, ⟨["--trace"], .flag⟩,
        ⟨["--ramdump"], .flag⟩]
      arguments := ["input"] }
  | "initram" | "romdump" => some { release, options := [helpOption], arguments := ["input"] }
  | "romget" => some { release, options := [helpOption], arguments := ["input", "address"] }
  | "ramget" => some
    { release
      options := [helpOption, ⟨["--initram"], .flag⟩, ⟨["--max-steps"], .number⟩]
      arguments := ["input", "address"] }
  | "console" => some { release, options := [helpOption], arguments := [] }
  | _ => none

/-- The limit that a command line sets for a run. -/
def stepLimit (r : Reading) : StepLimit :=
  if r.has "--max-steps" then ((r.number? "--max-steps").map .steps).getD .missing else .unlimited

/-- What is asked for by a command's name and what its command line says. -/
def request (name : String) (r : Reading) : Request :=
  let input := (r.value? "input").getD ""
  let address := r.value? "address"
  let limit := stepLimit r
  match name with
  | "compile" =>
    let target := if r.has "--output" then r.value? "--output" else some Console.defaultImage
    .command (.compile input target)
  | "run" => .command (.run input limit (r.has "--trace") (r.has "--ramdump"))
  | "initram" => .command (.initRam input)
  | "romdump" => .command (.romDump input)
  | "romget" => .command (.romGet input address)
  | "ramget" => .command (.ramGet input address (r.has "--initram") limit)
  | _ => .console

/-- Does what is asked for. The answer is the exit status. -/
def perform : Request → Work Nat
  | .console => do
    Console.loop
    return 0
  | .command c => do
    c.perform
    return 0

/-- Tells bad data and missing files, which make the exit status 1. -/
def guarded (work : Work Nat) : Work Nat :=
  tryCatch work fun failure => do
    match failure.kind with
    | .badValue | .badImage | .uninitialized =>
      errorLine s!"Error: {failure.message}"
      return 1
    | .missingFile path =>
      errorLine s!"Error: File not found: {path}"
      return 1
    | _ => throw failure

/-- The toolkit with the words of its command line. -/
def main (release : Release) (words : List String) (sh : Shell) : Ending × Shell :=
  match (grammar release).read words with
  | .error stop => tool.stop stop sh
  | .ok r =>
    match r.command with
    | [] =>
      if r.surplus then tool.stop .mistake sh
      else (.status 0, { sh with output := s!"{sh.output}{tool.usage}\n" })
    | name :: rest =>
      match commandGrammar? release name with
      | none => tool.stop .mistake sh
      | some commands =>
        match commands.read rest with
        | .error stop => tool.stop stop sh
        | .ok own =>
          if r.surplus || own.surplus then tool.stop .mistake sh
          else
            Tool.finish (do openChannels r; guarded (perform (request name own))) sh

end Subleq.CommandLine.Toolkit
