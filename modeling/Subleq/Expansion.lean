import Subleq.Block
import Subleq.Statement

/-!
# Subleq.Expansion — code for the statements

Every operation is done with subtractions. Three idioms recur:

* a cell minus itself is zero;
* what is subtracted from a cell that holds zero arrives there negated, and negating twice copies;
* subtracting the constant -1 counts up.

The cell `Layout.zero` collects negated values within a statement and is zero again at its end. The
scratch cells hold what they like between statements.
-/

namespace Subleq

open Layout

/-- Code that has a place in the program: the constants that every program sets up first, a
definition, or an operation on resolved addresses. -/
inductive Code where
  | preamble
  | define (value address : Int)
  | operation (op : Operation Int)
deriving Repr, DecidableEq

namespace Expansion

/-- The labels inside the blocks. -/
inductive Mark where
  | loop
  | last
  | low
  | same
  | done
deriving Repr, DecidableEq

/-- A step in building the block of a piece of code. -/
abbrev Action : Type := Block.Action Mark

/-- A subtraction that goes on at the next cell whatever its result. -/
def take (a b : Int) : Action := .subleq a b .next

/-- A subtraction that branches to a label of the block unless its result is positive. -/
def takeOr (a b : Int) (mark : Mark) : Action := .subleq a b (.label mark)

/-- Sets up the constants and the scratch cells. -/
def preamble : List Action :=
  [.load 0 zero, .load (-1) negOne, .load 0 tempA, .load 0 tempB, .load 0 tempC]

/-- Negates `a` into the zero cell, copies it into a scratch cell and branches to the cell whose
number is the scratch cell's. The branch clears the zero cell. -/
def jumpVia (a : Int) : List Action :=
  [take a zero, .clear tempA, take zero tempA, .jump (.absolute tempA)]

/-- Clears `b`, then copies `a` by negating twice. -/
def move (a b : Int) : List Action :=
  [.clear b, take a zero, take zero b, .clear zero]

/-- Collects `-(a + b)` and negates it into `c`. -/
def add (a b c : Int) : List Action :=
  [take a zero, take b zero, .clear c, take zero c, .clear zero]

/-- Forms `b - a` from the negated operands and negates it twice on the way to `c`. -/
def sub (a b c : Int) : List Action :=
  [.clear tempA, .clear tempB,
    take a tempA, take b tempB,
    take tempB tempA,
    .clear c, .clear tempB,
    take tempA tempB, take tempB c]

/-- Adds `a` to `c` once for each unit of `b`. A count that is not positive leaves `c` at zero. -/
def mul (a b c : Int) : List Action :=
  [.clear tempA, .clear tempB, .clear tempC,
    take b tempA, take tempA tempB,
    take negOne tempC,
    .clear tempA, take a tempA,
    .clear c,
    .label .loop,
    takeOr zero tempB .done,
    take tempA c,
    takeOr tempC tempB .done,
    .jump (.label .loop),
    .label .done]

/-- Subtracts `a` from a copy of `b` until nothing positive is left, counting in `c`; a remainder
of exactly zero counts once more. -/
def div (a b c : Int) : List Action :=
  [.clear tempA, .clear tempB, .clear tempC,
    take b tempA, take tempA tempB,
    .clear tempA, take a tempA, take tempA tempC,
    .clear c,
    .label .loop,
    takeOr tempC tempB .last,
    take negOne c,
    .jump (.label .loop),
    .label .last,
    takeOr negOne tempB .done,
    take negOne c,
    .label .done]

/-- Goes to `greater` if `a > b` and to `atMost` otherwise. The difference is formed only when the
operands lie on one side of zero, where it cannot leave the range of a byte:

* `a > 0` and `b ≤ 0` is greater;
* `a ≤ 0` and `b > 0` is at most;
* otherwise the sign of `a - b` decides. -/
def compare (a b : Int) (greater atMost : Target Mark) : List Action :=
  [.clear tempC, take b tempC,
    .clear tempA, take a tempA,
    .clear tempB, takeOr tempA tempB .low,
    .clear tempA, .subleq tempC tempA greater,
    .jump (.label .same),
    .label .low,
    .clear tempA, takeOr tempC tempA .same,
    .jump atMost,
    .label .same,
    .subleq b tempB atMost,
    .jump greater]

/-- A conditional branch: the other outcome goes on after the block. -/
def branch (cond : Condition) (a b target : Int) : List Action :=
  match cond with
  | .greater => compare a b (.absolute target) (.label .done) ++ [.label .done]
  | .atMost => compare a b (.label .done) (.absolute target) ++ [.label .done]

/-- The actions that build the block of an operation. -/
def operation : Operation Int → List Action
  | .jump target => [.jump (.absolute target)]
  | .jumpVia a => jumpVia a
  | .move a b => move a b
  | .arith .add a b c => add a b c
  | .arith .sub a b c => sub a b c
  | .arith .mul a b c => mul a b c
  | .arith .div a b c => div a b c
  | .branch cond a b target => branch cond a b target

end Expansion

namespace Code

/-- The block of a piece of code. -/
def block : Code → Block Expansion.Mark
  | preamble => .ofActions Expansion.preamble
  | define value address => .ofActions [.load value address]
  | operation op => .ofActions (Expansion.operation op)

/-- The number of cells of a piece of code. -/
def size (c : Code) : Nat := c.block.length

@[simp] theorem size_preamble : size preamble = 5 := rfl

@[simp] theorem size_define (value address : Int) : size (define value address) = 1 := rfl

/-- Every operation has one size, whatever its operands. -/
theorem size_operation (op : Operation Int) : size (operation op) =
    match op with
    | .jump _ => 1
    | .jumpVia _ => 4
    | .move .. => 4
    | .arith .add .. => 5
    | .arith .sub .. => 9
    | .arith .mul .. => 13
    | .arith .div .. => 14
    | .branch .. => 14 := by
  match op with
  | .jump _ | .jumpVia _ | .move .. | .arith .add .. | .arith .sub .. | .arith .mul ..
  | .arith .div .. | .branch .greater .. | .branch .atMost .. => cbv

/-- The block of a piece of code has each of its labels once and names no other. -/
theorem isWellLabelled_block (c : Code) : c.block.isWellLabelled = true := by
  match c with
  | .preamble | .define .. | .operation (.jump _) | .operation (.jumpVia _)
  | .operation (.move ..) | .operation (.arith .add ..) | .operation (.arith .sub ..) => rfl
  | .operation (.arith .mul ..) | .operation (.arith .div ..)
  | .operation (.branch .greater ..) | .operation (.branch .atMost ..) =>
    -- the operands play no part: what is left is to look up the marks
    simp [block, Expansion.operation, Expansion.mul, Expansion.div, Expansion.branch,
      Expansion.compare, Expansion.take, Expansion.takeOr, Block.ofActions, Block.act, Block.add,
      Block.isWellLabelled, Block.close, Block.labels, Block.length, Block.duplicate?,
      Block.isResolved, List.lookup_cons]
    decide

theorem isOk_assemble_block (c : Code) (origin : Int) : (c.block.assemble origin).isOk = true := by
  rw [Block.isOk_assemble, isWellLabelled_block]

/-- The cells of a piece of code whose first cell is at `origin`. -/
def cells (c : Code) (origin : Int) : List Cell :=
  match h : c.block.assemble origin with
  | .ok cells => cells
  | .error _ => absurd (isOk_assemble_block c origin) (by simp [h, Except.isOk, Except.toBool])

theorem assemble_block (c : Code) (origin : Int) :
    c.block.assemble origin = .ok (c.cells origin) := by
  have h := isOk_assemble_block c origin
  unfold cells
  split
  · assumption
  · simp_all [Except.isOk, Except.toBool]

end Code

end Subleq
