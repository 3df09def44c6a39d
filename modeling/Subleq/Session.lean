import Subleq.Expansion
import Subleq.Log
import Subleq.Operand
import Subleq.Program

/-!
# Subleq.Session — compiling a program

A session holds what compiling has come to: the symbol table, the code placed so far, the listing
of its pieces, and the diagnostics. Lines are compiled one after the other. Each line has one
outcome:

1. a blank line changes nothing;
2. the code of a line is placed at the program counter;
3. a line that cannot be compiled is reported and places nothing;
4. a number that is too long to be converted, in an operand or in the text of a report, ends the
   compilation.
-/

namespace Subleq

/-- A piece of code with the address of its first cell and the source line that it is for. -/
structure Placement where
  start : Int
  code : Code
  source : String
deriving Repr, DecidableEq

/-- The state of a compilation. -/
structure Session where
  symbols : SymbolTable := {}
  pc : Int := 0
  /-- A statement other than a definition has been met. -/
  definitionsClosed : Bool := false
  program : Program := ∅
  diagnostics : List Diagnostic := []
  listing : List Placement := []
  log : List LogRecord := []

/-- What becomes of a line. -/
inductive LineOutcome where
  | blank
  | emitted (code : Code)
  | rejected (cause : Issue)
  | raised (cause : Text.TooManyDigits)
deriving Repr, DecidableEq

/-- Writes cells into a store, one after the other from an address on. -/
def Program.insertCells (p : Program) (start : Int) : List Cell → Program
  | [] => p
  | cell :: cells => insertCells (p.insert start cell) (start + 1) cells

namespace Session

/-! ## Reporting -/

/-- Adds a log record of the compiler, if its message can be written. -/
def note (s : Session) (level : Log.Level) (message : Except Text.TooManyDigits String) : Session :=
  { s with log := s.log ++ LogRecord.writing level .compiler message }

/-- Reports an issue of a line. -/
def report (line : Int) (s : Session) (cause : Issue) : Session :=
  let d : Diagnostic := ⟨cause, line⟩
  { s with diagnostics := s.diagnostics ++ [d] }.note
    (if d.isError then .error else .warning) d.render

/-- The diagnostics of lines that were not compiled. -/
def errors (s : Session) : List Diagnostic := s.diagnostics.filter (·.isError)

/-! ## Placing code -/

/-- The issue of too little room for a number of cells, if there is too little. -/
def lackOfSpace? (s : Session) (cells : Nat) : Option Issue :=
  if Layout.programLimit < s.pc + cells then some (.storeFull cells s.pc) else none

/-- Places a piece of code at the program counter. -/
def place (s : Session) (code : Code) (source : String) : Session :=
  { s with
    program := s.program.insertCells s.pc (code.cells s.pc)
    listing := s.listing ++ [⟨s.pc, code, source⟩]
    pc := s.pc + code.size }

/-- Places the preamble, if there is room for it. -/
def placePreamble (s : Session) : Except Obstacle Session :=
  match s.lackOfSpace? Code.preamble.size with
  | some cause => .error cause.obstacle
  | none => .ok (s.place .preamble "preamble")

/-! ## Compiling a line -/

/-- Ends the work on a line if there is no room for its code. -/
def requireSpace (s : Session) (cells : Nat) : LineWork Unit :=
  match s.lackOfSpace? cells with
  | some cause => LineWork.reject cause
  | none => pure ()

/-- The code of a statement, and the symbol table with what the statement defines. The value of a
definition is resolved before its name is looked at, and room in the program store is asked for
before a cell of the heap. -/
def codeFor (s : Session) (statement : Statement) : LineWork (Code × SymbolTable) :=
  match statement.clause with
  | .define name token => do
    if s.definitionsClosed then LineWork.warn (.lateDefinition name)
    let value ← s.symbols.value token
    if let some cause := nameError? name then LineWork.reject (.define (.badName cause))
    s.requireSpace 1
    match s.symbols.define name value statement.line with
    | .ok (v, symbols) => return (.define (Byte.decode value) v.address, symbols)
    | .error cause => LineWork.reject (.define cause)
  | .operation op => do
    let code := Code.operation (← op.mapM s.symbols.address)
    s.requireSpace code.size
    return (code, s.symbols)

/-- Compiles a statement: reports the warnings, then places the code or reports why not. -/
def compileStatement (s : Session) (statement : Statement) : Session × LineOutcome :=
  let line := statement.line
  let (result, warnings) := (s.codeFor statement).outcome
  let s := warnings.foldl (report line) s
  match result with
  | .error (.issue cause) => (s.report line cause, .rejected cause)
  | .error (.tooManyDigits cause) => (s, .raised cause)
  | .ok (code, symbols) =>
    let s := { s with symbols }.place code statement.text
    let message := do
      return s!"line {← Text.written line}: {statement.render} -> {code.size} cells, " ++
        s!"pc={← Text.written s.pc}"
    (s.note .debug message, .emitted code)

/-- Compiles a line. Any statement but a definition closes the definition section, also one that
is rejected. -/
def compileLine (s : Session) (text : String) (line : Int) : Session × LineOutcome :=
  match Statement.parse text line with
  | .error cause => (s.report line (.statement cause), .rejected (.statement cause))
  | .ok none => (s, .blank)
  | .ok (some statement) =>
    let closes := statement.clause.opcode != .define
    { s with definitionsClosed := s.definitionsClosed || closes }.compileStatement statement

/-- Compiles a line under any number. The number is part of the text of what is wrong with the words of
the line; if it is too long to be written, the compilation is ended and not the line reported. No text
has so many lines that their numbers are too long. -/
def compileLineAt (s : Session) (text : String) (line : Int) : Session × LineOutcome :=
  match s.compileLine text line with
  | (s', .rejected cause) =>
    if cause.kind = .parse ∧ ¬Text.IsWritable line then
      ({ s' with diagnostics := s'.diagnostics.dropLast }, .raised .number)
    else (s', .rejected cause)
  | result => result

/-! ## Compiling a program -/

/-- Compiles lines in order, up to one that raises. -/
def compileLines (s : Session) : List (Int × String) → Session × Option Text.TooManyDigits
  | [] => (s, none)
  | (line, text) :: rest =>
    match s.compileLine text line with
    | (s, .raised cause) => (s, some cause)
    | (s, _) => compileLines s rest

/-- The session in which a program is compiled: nothing but the preamble is placed. -/
def start (symbols : SymbolTable) : Session :=
  { symbols : Session }.place .preamble "preamble"

/-- Compiles a program, beginning with the given symbol table. The session is what compiling came
to even if it was ended early. -/
def compile (symbols : SymbolTable) (source : String) : Session × Option Text.TooManyDigits :=
  match (start symbols).compileLines (Text.numberedLines source) with
  | (s, some cause) => (s, some cause)
  | (s, none) =>
    let message := do
      return s!"generated {← Text.written s.pc} cells, {s.symbols.size} variables, " ++
        s!"{s.diagnostics.length} diagnostics"
    (s.note .info message, none)

/-- The program store of a source text in the default layout, unless compiling is ended early. -/
def compileProgram (source : String) : Except Text.TooManyDigits Program :=
  match compile {} source with
  | (_, some cause) => .error cause
  | (s, none) => .ok s.program

/-! ## Listing -/

/-- The line of a cell in a listing, with a remark. -/
def listingLine (address : Int) (cell : Cell) (remark : String) : Except Text.TooManyDigits String := do
  let disassembly ← cell.disassemble
  return s!"{← Text.field 3 address}  {disassembly}{remark}"

/-- The lines of a piece of code: each cell with its address, the first with the source. -/
def placementLines (p : Placement) : Except Text.TooManyDigits (List String) :=
  (p.code.cells p.start).zipIdx.mapM fun (cell, i) =>
    let remark := if i = 0 ∧ p.source ≠ "" then s!"  ; {p.source}" else ""
    listingLine (p.start + (i : Int)) cell remark

/-- The listing of a program. -/
def listingText (s : Session) : Except Text.TooManyDigits String := do
  let lines ← s.listing.mapM placementLines
  return Text.joinLines lines.flatten

end Session

end Subleq
