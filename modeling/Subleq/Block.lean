import Subleq.Cell
import Subleq.Layout

/-!
# Subleq.Block — blocks of code with labels

A block is a row of instructions whose branch targets may be labels of the block itself. It is put
together by actions: each adds an instruction, or announces a label for the next instruction, or
closes the block, whereupon the labels still waiting name the cell after the block. Once the
address of its first cell is known, the block is assembled into cells. Labels may be of any type
whose values can be told apart.
-/

namespace Subleq

/-- Where an instruction goes on. -/
inductive Target (ℓ : Type) where
  /-- At the next cell. -/
  | next
  /-- At an address. -/
  | absolute (address : Int)
  /-- At a label of the same block. -/
  | label (name : ℓ)
deriving Repr, DecidableEq

/-- An instruction of a block. A load always goes on at the next cell. -/
inductive Instruction (ℓ : Type) where
  | load (value dest : Int)
  | subleq (a b : Int) (target : Target ℓ)
deriving Repr, DecidableEq

/-- Why a block cannot be assembled. -/
inductive AssemblyError (ℓ : Type) where
  | duplicateLabel (name : ℓ)
  | undefinedLabel (name : ℓ)
deriving Repr, DecidableEq

def AssemblyError.message {ℓ : Type} [ToString ℓ] : AssemblyError ℓ → String
  | .duplicateLabel name => s!"duplicate label '{name}'"
  | .undefinedLabel name => s!"undefined label '{name}'"

/-- The instructions with the labels that name them, the labels that wait for an instruction, and
those that name the cell after the block. -/
structure Block (ℓ : Type) where
  entries : List (Instruction ℓ × List ℓ) := []
  waiting : List ℓ := []
  endLabels : List ℓ := []
deriving Repr, DecidableEq

namespace Block

variable {ℓ : Type}

/-- The number of instructions. -/
def length (b : Block ℓ) : Nat := b.entries.length

/-! ## Building -/

/-- A step in building a block. -/
inductive Action (ℓ : Type) where
  | label (name : ℓ)
  | load (value dest : Int)
  | subleq (a b : Int) (target : Target ℓ)
  /-- Sets a cell to zero. -/
  | clear (a : Int)
  /-- Goes to the target whatever is stored. -/
  | jump (target : Target ℓ)
  | close
deriving Repr, DecidableEq

/-- Adds an instruction, which takes the labels that wait. -/
def add (b : Block ℓ) (i : Instruction ℓ) : Block ℓ :=
  { b with entries := b.entries ++ [(i, b.waiting)], waiting := [] }

/-- Lets the labels that wait name the cell after the block. -/
def close (b : Block ℓ) : Block ℓ :=
  { b with endLabels := b.endLabels ++ b.waiting, waiting := [] }

/-- One step in building. A cell minus itself is zero, and zero minus zero branches always. -/
def act (b : Block ℓ) : Action ℓ → Block ℓ
  | .label name => { b with waiting := b.waiting ++ [name] }
  | .load value dest => b.add (.load value dest)
  | .subleq a c target => b.add (.subleq a c target)
  | .clear a => b.add (.subleq a a .next)
  | .jump target => b.add (.subleq Layout.zero Layout.zero target)
  | .close => b.close

/-- The block that a row of actions builds. -/
def ofActions (actions : List (Action ℓ)) : Block ℓ := actions.foldl act {}

/-! ## Assembling -/

/-- The labels of a block, each with the number of instructions before the cell that it names. -/
def labels (b : Block ℓ) : List (ℓ × Nat) :=
  (b.entries.zipIdx.flatMap fun ((_, names), i) => names.map (·, i)) ++
    b.endLabels.map (·, b.length)

variable [DecidableEq ℓ]

/-- The first name in a list that stood before in it or is among those seen. -/
def duplicate? (seen : List ℓ) : List ℓ → Option ℓ
  | [] => none
  | name :: names =>
    if seen.contains name then some name else duplicate? (name :: seen) names

/-- The address at which an instruction goes on, in a block at `origin`, from the address `here`. -/
def resolve (labels : List (ℓ × Nat)) (origin here : Int) :
    Target ℓ → Except (AssemblyError ℓ) Int
  | .next => .ok (here + 1)
  | .absolute address => .ok address
  | .label name =>
    match labels.lookup name with
    | some offset => .ok (origin + offset)
    | none => .error (.undefinedLabel name)

/-- The cell of an instruction at the address `here`. -/
def cell (labels : List (ℓ × Nat)) (origin here : Int) :
    Instruction ℓ → Except (AssemblyError ℓ) Cell
  | .load value dest => .ok (.load value dest (here + 1))
  | .subleq a b target => (resolve labels origin here target).map (.subleq a b)

/-- The cells of the instructions from the address `here` on. -/
def cells (labels : List (ℓ × Nat)) (origin here : Int) :
    List (Instruction ℓ) → Except (AssemblyError ℓ) (List Cell)
  | [] => .ok []
  | i :: is => do
    let c ← cell labels origin here i
    let cs ← cells labels origin (here + 1) is
    return c :: cs

/-- The cells of a block whose first cell is at `origin`. The block is closed first. A label that
is given twice is reported before one that is missing. -/
def assemble (b : Block ℓ) (origin : Int) : Except (AssemblyError ℓ) (List Cell) :=
  let b := b.close
  match duplicate? [] (b.labels.map (·.1)) with
  | some name => .error (.duplicateLabel name)
  | none => cells b.labels origin origin (b.entries.map (·.1))

/-! ## When assembling succeeds -/

/-- The label that an instruction branches to, if any, is among those given. -/
def isResolved (labels : List (ℓ × Nat)) : Instruction ℓ → Bool
  | .subleq _ _ (.label name) => (labels.lookup name).isSome
  | _ => true

/-- No label is given twice and none is missing. -/
def isWellLabelled (b : Block ℓ) : Bool :=
  let b := b.close
  (duplicate? [] (b.labels.map (·.1))).isNone && b.entries.all fun (i, _) => isResolved b.labels i

theorem isOk_cell (labels : List (ℓ × Nat)) (origin here : Int) (i : Instruction ℓ) :
    (cell labels origin here i).isOk = isResolved labels i := by
  match i with
  | .load .. | .subleq _ _ .next | .subleq _ _ (.absolute _) => rfl
  | .subleq _ _ (.label name) =>
    cases h : labels.lookup name <;> simp [cell, resolve, isResolved, h] <;> rfl

theorem isOk_cells (labels : List (ℓ × Nat)) (origin here : Int) (is : List (Instruction ℓ)) :
    (cells labels origin here is).isOk = is.all (isResolved labels) := by
  induction is generalizing here with
  | nil => rfl
  | cons i is ih =>
    have hi := isOk_cell labels origin here i
    have his := ih (here + 1)
    rw [List.all_cons, ← hi, ← his, cells]
    cases cell labels origin here i with
    | error => rfl
    | ok =>
      cases cells labels origin (here + 1) is <;> rfl

/-- Whether a block can be assembled depends on its labels only, not on where it is placed. -/
theorem isOk_assemble (b : Block ℓ) (origin : Int) :
    (b.assemble origin).isOk = b.isWellLabelled := by
  simp only [assemble, isWellLabelled]
  cases duplicate? [] (b.close.labels.map (·.1)) with
  | some => rfl
  | none => simp [isOk_cells, List.all_map, Function.comp_def]

end Block

end Subleq
