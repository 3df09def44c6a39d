import Subleq.Text.Numeral

/-!
# Subleq.Log — log records

Each part of the toolchain reports under a name of its own. A record is shown on the error channel
if its level is high enough; a log file takes all of them.
-/

namespace Subleq

namespace Log

/-- How much a record matters. -/
inductive Level where
  | debug
  | info
  | warning
  | error
deriving Repr, DecidableEq

def Level.name : Level → String
  | .debug => "DEBUG"
  | .info => "INFO"
  | .warning => "WARNING"
  | .error => "ERROR"

/-- The place of a level in the order from least to most important. -/
def Level.rank : Level → Nat
  | .debug => 0
  | .info => 1
  | .warning => 2
  | .error => 3

/-- The part of the toolchain that reports. -/
inductive Reporter where
  | compiler
  | literals
  | images
  | machine
deriving Repr, DecidableEq

def Reporter.name : Reporter → String
  | .compiler => "oisc_compiler.codegen"
  | .literals => "oisc_compiler.numeric"
  | .images => "oisc_compiler.encoding"
  | .machine => "oisc_emulator.machine"

end Log

/-- One report. -/
structure LogRecord where
  level : Log.Level
  reporter : Log.Reporter
  message : String
deriving Repr, DecidableEq

namespace LogRecord

/-- The record of a message, if the message can be written. -/
def writing (level : Log.Level) (reporter : Log.Reporter) :
    Except Text.TooManyDigits String → List LogRecord
  | .ok message => [⟨level, reporter, message⟩]
  | .error _ => []

/-- The record as the error channel shows it. -/
def briefLine (r : LogRecord) : String := s!"{r.level.name}: {r.message}\n"

/-- The record as a log file holds it, less the time. -/
def fullLine (r : LogRecord) : String := s!"{r.reporter.name} - {r.level.name} - {r.message}\n"

end LogRecord

end Subleq
