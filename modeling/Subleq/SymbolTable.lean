import Subleq.Layout
import Subleq.Literal

/-!
# Subleq.SymbolTable — names and their cells

Variables are allotted cells downwards from the start of the heap, in the order of their first
definition. Defining a name again changes its value and keeps its cell. The name of the port is
always known and is never a variable.
-/

namespace Subleq

/-- A variable: its cell, and the pattern that its last definition gives it. -/
structure Variable where
  name : String
  address : Int
  value : Int
  line : Int
deriving Repr, DecidableEq

/-- Why a name cannot be defined. -/
inductive NameError where
  | reserved
  | numeric (name : String)
  | literal (name : String)
deriving Repr, DecidableEq

def NameError.message : NameError → String
  | .reserved => s!"{Layout.ioPortName} is a reserved variable name"
  | .numeric name => s!"invalid variable name '{name}': must contain non-numeric characters"
  | .literal name => s!"invalid variable name '{name}': looks like a literal"

/-- What is wrong with a name, if anything is. -/
def nameError? (name : String) : Option NameError :=
  if name = Layout.ioPortName then some .reserved
  else
    match Literal.ofToken? name with
    | some (.decimal _) => some (.numeric name)
    | some _ => some (.literal name)
    | none => none

/-- Why a definition fails. -/
inductive DefineError where
  | badName (cause : NameError)
  | heapFull (capacity : Int) (name : String)
deriving Repr, DecidableEq

def DefineError.message : DefineError → String
  | .badName cause => cause.message
  | .heapFull capacity name =>
    s!"out of heap space, maximum of {capacity} variables exceeded; cannot define '{name}'"

/-- The variables of a program, in the order of their first definition. -/
structure SymbolTable where
  heapStart : Int := Layout.heapStart
  capacity : Int := Layout.maxVariables
  «variables» : List Variable := []
deriving Repr, DecidableEq

namespace SymbolTable

/-- The number of variables. -/
def size (t : SymbolTable) : Nat := t.variables.length

/-- The cell that the next new variable gets. -/
def heapPointer (t : SymbolTable) : Int := t.heapStart - t.size

/-- The variable of a name. -/
def find? (t : SymbolTable) (name : String) : Option Variable :=
  t.variables.find? (·.name = name)

/-- The cell of a name: the port's, or a variable's. -/
def lookup? (t : SymbolTable) (name : String) : Option Int :=
  if name = Layout.ioPortName then some Layout.ioPort else (t.find? name).map (·.address)

/-- The name is known. -/
def contains (t : SymbolTable) (name : String) : Bool := (t.lookup? name).isSome

/-- Puts a variable in the place of the one of its name. -/
def replace (v : Variable) (vs : List Variable) : List Variable :=
  vs.map fun w => if w.name = v.name then v else w

/-- Defines a name, or gives it a new value. A bad name is reported before a full heap. -/
def define (t : SymbolTable) (name : String) (value line : Int) :
    Except DefineError (Variable × SymbolTable) :=
  match nameError? name with
  | some cause => .error (.badName cause)
  | none =>
    match t.find? name with
    | some old =>
      let v : Variable := { old with value, line }
      .ok (v, { t with «variables» := replace v t.variables })
    | none =>
      if t.capacity ≤ t.size then .error (.heapFull t.capacity name)
      else
        let v : Variable := ⟨name, t.heapPointer, value, line⟩
        .ok (v, { t with «variables» := t.variables ++ [v] })

end SymbolTable

end Subleq
