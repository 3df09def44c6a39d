import Subleq.Text.Blank
import Subleq.Text.Lines

/-!
# Subleq.Statement — the source language

A program has one statement on a line:

| statement | meaning |
|---|---|
| `DEF name value` | gives a variable its cell and its first value |
| `JMP target` | goes to `target` |
| `JMPI a` | copies `a` into a scratch cell and goes to the program cell of that cell's number |
| `MOV a b` | `b := a` |
| `ADD a b c` | `c := a + b` |
| `SUB a b c` | `c := b - a` |
| `MUL a b c` | `c := a * b` |
| `DIV a b c` | `c := b / a` |
| `IFGT a b target` | goes to `target` if `a > b` |
| `IFLE a b target` | goes to `target` if `a ≤ b` |

The words of a line after the operands are a comment.
-/

namespace Subleq

/-- The statements, by their first word. -/
inductive Opcode where
  | define
  | jump
  | jumpVia
  | move
  | add
  | sub
  | mul
  | div
  | ifGreater
  | ifAtMost
deriving Repr, DecidableEq

namespace Opcode

def keyword : Opcode → String
  | define => "DEF"
  | jump => "JMP"
  | jumpVia => "JMPI"
  | move => "MOV"
  | add => "ADD"
  | sub => "SUB"
  | mul => "MUL"
  | div => "DIV"
  | ifGreater => "IFGT"
  | ifAtMost => "IFLE"

/-- The number of operands. -/
def arity : Opcode → Nat
  | define | move => 2
  | jump | jumpVia => 1
  | add | sub | mul | div | ifGreater | ifAtMost => 3

def all : List Opcode :=
  [define, jump, jumpVia, move, add, sub, mul, div, ifGreater, ifAtMost]

/-- The opcode that a word names. -/
def ofKeyword? (word : String) : Option Opcode := all.find? (·.keyword = word)

end Opcode

/-! ## Operations -/

/-- The operations that compute one cell from two. -/
inductive Arith where
  | add
  | sub
  | mul
  | div
deriving Repr, DecidableEq

/-- When a conditional branch is taken. -/
inductive Condition where
  | greater
  | atMost
deriving Repr, DecidableEq

/-- What a program does when it runs. The operands are words of the source or, once they are
resolved, addresses. -/
inductive Operation (ω : Type) where
  | jump (target : ω)
  | jumpVia (a : ω)
  | move (a b : ω)
  | arith (op : Arith) (a b c : ω)
  | branch (cond : Condition) (a b target : ω)
deriving Repr, DecidableEq

namespace Operation

variable {ω : Type}

def opcode : Operation ω → Opcode
  | jump _ => .jump
  | jumpVia _ => .jumpVia
  | move .. => .move
  | arith .add .. => .add
  | arith .sub .. => .sub
  | arith .mul .. => .mul
  | arith .div .. => .div
  | branch .greater .. => .ifGreater
  | branch .atMost .. => .ifAtMost

/-- The operands from left to right. -/
def operands : Operation ω → List ω
  | jump target => [target]
  | jumpVia a => [a]
  | move a b => [a, b]
  | arith _ a b c => [a, b, c]
  | branch _ a b target => [a, b, target]

/-- Acts on the operands from left to right. -/
def mapM {m : Type → Type} [Monad m] {ω' : Type} (f : ω → m ω') : Operation ω → m (Operation ω')
  | jump target => return .jump (← f target)
  | jumpVia a => return .jumpVia (← f a)
  | move a b => return .move (← f a) (← f b)
  | arith op a b c => return .arith op (← f a) (← f b) (← f c)
  | branch cond a b target => return .branch cond (← f a) (← f b) (← f target)

theorem length_operands (op : Operation ω) : op.operands.length = op.opcode.arity := by
  cases op with
  | arith op => cases op <;> rfl
  | branch cond => cases cond <;> rfl
  | _ => rfl

end Operation

/-- A statement's operation and operands: a definition, or something to do. -/
inductive Clause where
  | define (name value : String)
  | operation (op : Operation String)
deriving Repr, DecidableEq

namespace Clause

def opcode : Clause → Opcode
  | define .. => .define
  | operation op => op.opcode

def operands : Clause → List String
  | define name value => [name, value]
  | operation op => op.operands

/-- The clause of an opcode whose operands are the first of the words; nothing if there are too
few. -/
def ofWords? : Opcode → List String → Option Clause
  | .define, name :: value :: _ => some (.define name value)
  | .jump, target :: _ => some (.operation (.jump target))
  | .jumpVia, a :: _ => some (.operation (.jumpVia a))
  | .move, a :: b :: _ => some (.operation (.move a b))
  | .add, a :: b :: c :: _ => some (.operation (.arith .add a b c))
  | .sub, a :: b :: c :: _ => some (.operation (.arith .sub a b c))
  | .mul, a :: b :: c :: _ => some (.operation (.arith .mul a b c))
  | .div, a :: b :: c :: _ => some (.operation (.arith .div a b c))
  | .ifGreater, a :: b :: target :: _ => some (.operation (.branch .greater a b target))
  | .ifAtMost, a :: b :: target :: _ => some (.operation (.branch .atMost a b target))
  | _, _ => none

theorem length_operands (c : Clause) : c.operands.length = c.opcode.arity := by
  cases c with
  | define => rfl
  | operation op => exact op.length_operands

/-- A clause is refused exactly for too few operands. -/
theorem ofWords?_eq_none_iff {op : Opcode} {ws : List String} :
    ofWords? op ws = none ↔ ws.length < op.arity := by
  match ws with
  | [] => cases op <;> simp [ofWords?, Opcode.arity]
  | [_] => cases op <;> simp [ofWords?, Opcode.arity]
  | [_, _] => cases op <;> simp [ofWords?, Opcode.arity]
  | _ :: _ :: _ :: _ => cases op <;> simp [ofWords?, Opcode.arity]

/-- The operands are the first words. -/
theorem operands_of_ofWords? {op : Opcode} {ws : List String} {c : Clause}
    (h : ofWords? op ws = some c) : c.opcode = op ∧ c.operands = ws.take op.arity := by
  match ws with
  | [] => cases op <;> simp [ofWords?] at h
  | [_] => cases op <;> simp [ofWords?] at h <;> subst h <;> exact ⟨rfl, rfl⟩
  | [_, _] => cases op <;> simp [ofWords?] at h <;> subst h <;> exact ⟨rfl, rfl⟩
  | _ :: _ :: _ :: _ => cases op <;> simp [ofWords?] at h <;> subst h <;> exact ⟨rfl, rfl⟩

end Clause

/-! ## Statements -/

/-- A statement, the number of its line, and the line without the blanks at its end. -/
structure Statement where
  clause : Clause
  line : Int
  text : String
deriving Repr, DecidableEq

/-- Why a line is no statement. -/
inductive StatementError where
  | unknownOperator (word : String)
  | missingOperands (op : Opcode) (found : Nat)
deriving Repr, DecidableEq

def StatementError.message : StatementError → String
  | .unknownOperator word => s!"cannot parse operator '{word}', skipping line"
  | .missingOperands op found => s!"need {op.arity} operands for {op.keyword}, got {found}"

/-- A message with the number of its line in front; line 0 is not mentioned. -/
def atLine (line : Int) (message : String) : String :=
  if line = 0 then message else s!"Line {line}: {message}"

namespace Statement

/-- The keyword and the operands with one blank between them. -/
def render (s : Statement) : String :=
  " ".intercalate (s.clause.opcode.keyword :: s.clause.operands)

/-- The statement on a line; nothing on a line without words. -/
def parse (text : String) (line : Int) : Except StatementError (Option Statement) :=
  match (Text.words text.toList).map String.ofList with
  | [] => .ok none
  | word :: words =>
    match Opcode.ofKeyword? word with
    | none => .error (.unknownOperator word)
    | some op =>
      match Clause.ofWords? op words with
      | none => .error (.missingOperands op words.length)
      | some clause => .ok (some ⟨clause, line, String.ofList (Text.trimEnd text.toList)⟩)

/-- Sorts the lines of a program into statements and lines that are none. -/
def parseLines : List (Int × String) → List Statement × List (Int × StatementError)
  | [] => ([], [])
  | (line, text) :: rest =>
    let (statements, errors) := parseLines rest
    match parse text line with
    | .ok none => (statements, errors)
    | .ok (some s) => (s :: statements, errors)
    | .error e => (statements, (line, e) :: errors)

/-- The statements of a program, and the errors of the lines that are none. -/
def parseAll (source : String) : List Statement × List (Int × StatementError) :=
  parseLines (Text.numberedLines source)

end Statement

end Subleq
