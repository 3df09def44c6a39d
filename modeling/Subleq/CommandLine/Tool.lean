import Subleq.CommandLine.Grammar
import Subleq.Console

/-!
# Subleq.CommandLine.Tool — what the tools have in common

Both tools have options for how much is reported and where. A tool ends with an exit status, or
before it starts because of its command line, or with a failure that it does not deal with.
-/

namespace Subleq.CommandLine

/-- How a tool ends. -/
inductive Ending where
  | status (code : Nat)
  /-- The command line ended the tool. -/
  | stopped (code : Nat)
  | failed (cause : Failure)
deriving Repr, DecidableEq

/-- The name of a tool, and what it tells about its command line. -/
structure Tool where
  name : String
  usage : String

/-- The version of the tools. -/
def version : String := "0.4.0"

def helpOption : OptionSpec := ⟨["--help", "-h"], .help⟩

def versionOption : OptionSpec := ⟨["--version"], .version⟩

def verboseOption : OptionSpec := ⟨["--verbose", "-v"], .flag⟩

def quietOption : OptionSpec := ⟨["--quiet", "-q"], .flag⟩

def logFileOption : OptionSpec := ⟨["--log-file"], .value⟩

namespace Tool

/-- Ends a tool because of its command line. -/
def stop (t : Tool) : Stop → Shell → Ending × Shell
  | .mistake, sh => (.stopped 2, { sh with errors := s!"{sh.errors}{t.usage}\n" })
  | .help, sh => (.stopped 0, { sh with output := s!"{sh.output}{t.usage}\n" })
  | .version, sh => (.stopped 0, { sh with output := s!"{sh.output}{t.name} {version}\n" })

/-- Ends a tool as its work ends. -/
def finish (work : Work Nat) (sh : Shell) : Ending × Shell :=
  match work.outcome sh with
  | (.ok code, sh) => (.status code, sh)
  | (.error cause, sh) => (.failed cause, sh)

end Tool

/-- The least important level that is shown on the error channel. -/
def threshold (quiet : Bool) (verbosity : Nat) : Log.Level :=
  if quiet then .error
  else
    match verbosity with
    | 0 => .warning
    | 1 => .info
    | _ => .debug

/-- Sets up the error channel and the log file as the options say. -/
def openChannels (r : Reading) : Work Unit := do
  let level := threshold (r.has "--quiet") (r.count "--verbose")
  modify fun sh => { sh with threshold := level }
  match r.value? "--log-file" with
  | none | some "" => pure ()
  | some path => Work.openLog path

end Subleq.CommandLine
