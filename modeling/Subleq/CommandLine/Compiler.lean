import Subleq.CommandLine.Tool

/-!
# Subleq.CommandLine.Compiler — the compiler's command line

The compiler reads one source file and writes an image, or a listing where the name of the output
asks for one.
-/

namespace Subleq.CommandLine.Compiler

open Work

def grammar (release : Release) : Grammar where
  release
  options := [helpOption, ⟨["--output", "-o"], .value⟩, ⟨["--listing"], .flag⟩,
    ⟨["--strict"], .flag⟩, verboseOption, quietOption, logFileOption, versionOption]
  arguments := ["input"]

def tool : Tool := { name := "oisccc", usage := "usage: oisccc [options] input" }

/-- Reads the source. A file that is not there and one that cannot be read are told. -/
def readSource (path : String) : Work (Option String) := do
  try
    return some (← readText path)
  catch
    | .file cause => do
      match cause.kind with
      | .nullCharacter => throw (.file cause)
      | .notFound => errorLine s!"Error: File not found: {path}"
      | _ => errorLine s!"Error reading {path}: {cause.message}"
      return none
    | failure => throw failure

/-- Compiles the file and writes what was asked for. The answer is the exit status. -/
def perform (r : Reading) : Work Nat := do
  openChannels r
  let input := (r.value? "input").getD ""
  let quiet := r.has "--quiet"
  match ← readSource input with
  | none => return 1
  | some source =>
    let session ← compile source
    if r.has "--listing" then
      printLine (← text session.listingText)
    else
      let output := match r.value? "--output" with
        | none | some "" => Console.defaultImage
        | some path => path
      let content ←
        if Path.ending output = ".lst" then text (session.listingText.map (s!"{·}\n"))
        else pure (Image.render session.program)
      writeText output content
      if !quiet then
        errorLine <| s!"Compiled {input} -> {output} ({session.program.size} cells, " ++
          s!"{session.symbols.size} variables)"
    if session.errors ≠ [] ∧ !quiet then
      errorLine s!"{session.errors.length} statement(s) skipped"
    return if r.has "--strict" ∧ session.diagnostics ≠ [] then 1 else 0

/-- The compiler with the words of its command line. -/
def main (release : Release) (words : List String) (sh : Shell) : Ending × Shell :=
  match (grammar release).read words with
  | .error stop => tool.stop stop sh
  | .ok r => if r.surplus then tool.stop .mistake sh else Tool.finish (perform r) sh

end Subleq.CommandLine.Compiler
