import Mathlib
import Subleq.Expansion

/-!
# Subleq.Proofs.Cells — the cells of each operation

The assembler turns the block of a piece of code into cells. Here the cells of every kind of code
are written out, in terms of the address of the first of them, and what all cells of an operation
have in common is said once (`each_operation`): they are subtractions of reserved cells and of the
operation's own operands, and each of them goes on at the next cell, inside the block, or at the
operation's target.
-/

namespace Subleq

open Layout

/-! ## Operands -/

namespace Operation

variable {ω : Type}

/-- The operands that stand for data. -/
def data : Operation ω → List ω
  | jump _ => []
  | jumpVia a => [a]
  | move a b => [a, b]
  | arith _ a b c => [a, b, c]
  | branch _ a b _ => [a, b]

theorem mem_operands_of_data {op : Operation ω} {a : ω} (h : a ∈ op.data) : a ∈ op.operands := by
  cases op <;> simp_all [data, operands]
  tauto

/-- The operand that is written to. -/
def dest? : Operation ω → Option ω
  | move _ b => some b
  | arith _ _ _ c => some c
  | _ => none

/-- The address that a branch goes to, if the operation is one. -/
def target? : Operation Int → Option Int
  | jump target => some target
  | jumpVia _ => some tempA
  | branch _ _ _ target => some target
  | _ => none

/-- The cell is one of those that an operation works with: a reserved one, but for the port, or
that of an operand. -/
def Touches (op : Operation Int) (a : Int) : Prop := (zero ≤ a ∧ a ≤ negOne) ∨ a ∈ op.data

end Operation

/-! ## Statements about rows of cells -/

/-- Something holds of each cell of a row and of its address. -/
def EachCell (P : Int → Cell → Prop) : Int → List Cell → Prop
  | _, [] => True
  | here, cell :: cells => P here cell ∧ EachCell P (here + 1) cells

theorem eachCell_iff {P : Int → Cell → Prop} {here : Int} {cells : List Cell} :
    EachCell P here cells ↔ ∀ (i : Nat) cell, cells[i]? = some cell → P (here + i) cell := by
  induction cells generalizing here with
  | nil => simp [EachCell]
  | cons cell cells ih =>
    simp only [EachCell, ih]
    constructor
    · rintro ⟨hfirst, hrest⟩ i c hi
      cases i with
      | zero =>
        simp only [List.getElem?_cons_zero, Option.some.injEq] at hi
        simpa [hi] using hfirst
      | succ i =>
        have hadd : here + ((i + 1 : Nat) : Int) = here + 1 + i := by
          push_cast
          omega
        rw [hadd]
        exact hrest i c (by simpa using hi)
    · intro h
      refine ⟨by simpa using h 0 cell rfl, fun i c hi => ?_⟩
      have hadd : here + 1 + (i : Int) = here + ((i + 1 : Nat) : Int) := by
        push_cast
        omega
      rw [hadd]
      exact h (i + 1) c (by simpa using hi)

/-- Subtractions in a row, each of which goes on at the next cell. -/
def straight (here : Int) : List (Int × Int) → List Cell
  | [] => []
  | (a, b) :: rest => .subleq a b (here + 1) :: straight (here + 1) rest

@[simp] theorem length_straight (here : Int) (takes : List (Int × Int)) :
    (straight here takes).length = takes.length := by
  induction takes generalizing here with
  | nil => rfl
  | cons take takes ih => simp [straight, ih]

/-! ## The cells of each kind of code -/

/-- Every instruction becomes one cell. -/
theorem Block.length_of_cells {ℓ : Type} [DecidableEq ℓ] {labels : List (ℓ × Nat)}
    {origin here : Int} {is : List (Instruction ℓ)} {cs : List Cell}
    (h : cells labels origin here is = .ok cs) : cs.length = is.length := by
  induction is generalizing here cs with
  | nil =>
    cases h
    rfl
  | cons i is ih =>
    unfold cells at h
    cases hcell : cell labels origin here i with
    | error e => simp [hcell, bind, Except.bind] at h
    | ok c =>
      cases hrest : cells labels origin (here + 1) is with
      | error e => simp [hcell, hrest, bind, Except.bind] at h
      | ok rest =>
        simp only [hcell, hrest, bind, Except.bind, pure, Except.pure, Except.ok.injEq] at h
        subst h
        simp [ih hrest]

namespace Code

theorem cells_eq_of_assemble {c : Code} {o : Int} {cs : List Cell}
    (h : c.block.assemble o = .ok cs) : c.cells o = cs := by
  have hcells := c.assemble_block o
  rw [h] at hcells
  exact (Except.ok.inj hcells).symm

theorem cells_preamble (o : Int) : preamble.cells o =
    [.load 0 zero (o + 1), .load (-1) negOne (o + 2), .load 0 tempA (o + 3),
      .load 0 tempB (o + 4), .load 0 tempC (o + 5)] := by
  apply cells_eq_of_assemble
  have hnext : o + 1 + 1 = o + 2 ∧ o + 1 + 1 + 1 = o + 3 ∧ o + 1 + 1 + 1 + 1 = o + 4 ∧
      o + 1 + 1 + 1 + 1 + 1 = o + 5 := by omega
  obtain ⟨h2, h3, h4, h5⟩ := hnext
  rw [← h2, ← h3, ← h4, ← h5]
  rfl

theorem cells_define (v a o : Int) : (define v a).cells o = [.load v a (o + 1)] :=
  cells_eq_of_assemble rfl

section Operations

variable (a b c target o : Int)

-- What assembling comes to, so that the cells of a block can be computed.
attribute [local simp] block Expansion.operation Block.ofActions Block.act Block.add
  Expansion.take Expansion.takeOr Block.assemble Block.close Block.labels Block.duplicate?
  Block.length Block.cells Block.cell Block.resolve List.lookup beq_eq_decide Except.map bind
  Except.bind pure Except.pure straight

theorem cells_jump : (operation (.jump target)).cells o = [.subleq zero zero target] := by
  apply cells_eq_of_assemble
  simp

theorem cells_jumpVia : (operation (.jumpVia a)).cells o =
    straight o [(a, zero), (tempA, tempA), (zero, tempA)] ++ [.subleq zero zero tempA] := by
  apply cells_eq_of_assemble
  simp [Expansion.jumpVia]

theorem cells_move : (operation (.move a b)).cells o =
    straight o [(b, b), (a, zero), (zero, b), (zero, zero)] := by
  apply cells_eq_of_assemble
  simp [Expansion.move]

theorem cells_add : (operation (.arith .add a b c)).cells o =
    straight o [(a, zero), (b, zero), (c, c), (zero, c), (zero, zero)] := by
  apply cells_eq_of_assemble
  simp [Expansion.add]

theorem cells_sub : (operation (.arith .sub a b c)).cells o =
    straight o [(tempA, tempA), (tempB, tempB), (a, tempA), (b, tempB), (tempB, tempA), (c, c),
      (tempB, tempB), (tempA, tempB), (tempB, c)] := by
  apply cells_eq_of_assemble
  simp [Expansion.sub]

theorem cells_mul : (operation (.arith .mul a b c)).cells o =
    straight o [(tempA, tempA), (tempB, tempB), (tempC, tempC), (b, tempA), (tempA, tempB),
      (negOne, tempC), (tempA, tempA), (a, tempA), (c, c)] ++
    [.subleq zero tempB (o + 13), .subleq tempA c (o + 11), .subleq tempC tempB (o + 13),
      .subleq zero zero (o + 9)] := by
  apply cells_eq_of_assemble
  simp [Expansion.mul]
  omega

theorem cells_div : (operation (.arith .div a b c)).cells o =
    straight o [(tempA, tempA), (tempB, tempB), (tempC, tempC), (b, tempA), (tempA, tempB),
      (tempA, tempA), (a, tempA), (tempA, tempC), (c, c)] ++
    [.subleq tempC tempB (o + 12), .subleq negOne c (o + 11), .subleq zero zero (o + 9),
      .subleq negOne tempB (o + 14), .subleq negOne c (o + 14)] := by
  apply cells_eq_of_assemble
  simp [Expansion.div]
  omega

/-- Where a comparison goes if the first operand is greater, and where it goes otherwise. -/
def exits (cond : Condition) (target done : Int) : Int × Int :=
  match cond with
  | .greater => (target, done)
  | .atMost => (done, target)

theorem cells_branch (cond : Condition) : (operation (.branch cond a b target)).cells o =
    straight o [(tempC, tempC), (b, tempC), (tempA, tempA), (a, tempA), (tempB, tempB)] ++
    [.subleq tempA tempB (o + 9), .subleq tempA tempA (o + 7),
      .subleq tempC tempA (exits cond target (o + 14)).1, .subleq zero zero (o + 12),
      .subleq tempA tempA (o + 10), .subleq tempC tempA (o + 12),
      .subleq zero zero (exits cond target (o + 14)).2,
      .subleq b tempB (exits cond target (o + 14)).2,
      .subleq zero zero (exits cond target (o + 14)).1] := by
  apply cells_eq_of_assemble
  cases cond with
  | greater =>
    simp [Expansion.branch, Expansion.compare, exits]
    omega
  | atMost =>
    simp [Expansion.branch, Expansion.compare, exits]
    omega

end Operations

/-! ## What they have in common -/

theorem length_cells (c : Code) (o : Int) : (c.cells o).length = c.size := by
  have hassemble := c.assemble_block o
  simp only [Block.assemble] at hassemble
  split at hassemble
  · simp at hassemble
  · rw [Block.length_of_cells hassemble]
    simp [size, Block.length, Block.close]

/-- The code is an operation's. -/
def isOperation : Code → Bool
  | operation _ => true
  | _ => false

theorem exists_operation {c : Code} (h : c.isOperation = true) : ∃ op, c = operation op := by
  cases c with
  | operation op => exact ⟨op, rfl⟩
  | preamble => cases h
  | define value a => cases h

/-- All other code consists of loads, each of which goes on at the next cell. Those of the preamble
store -1 in the cell of that constant and 0 in all other reserved cells. -/
theorem each_load {c : Code} (h : c.isOperation = false) (o : Int) :
    EachCell (fun here cell => ∃ v a, cell = .load v a (here + 1) ∧
      ((zero ≤ a ∧ a ≤ negOne ∧ v = if a = negOne then -1 else 0) ∨ c = .define v a))
      o (c.cells o) := by
  cases c with
  | operation op => cases h
  | define value a =>
    rw [cells_define]
    simp [EachCell]
  | preamble =>
    rw [cells_preamble]
    simp [EachCell, zero, negOne, tempA, tempB, tempC]
    omega

/-- What a cell of an operation is like, in a block from `first` on: it subtracts a cell that the
operation works with from another one, and it goes on at the next cell; a subtraction from a
reserved cell may also branch inside the block or to the operation's target. -/
def HasCell (op : Operation Int) (first here : Int) : Cell → Prop
  | .load .. => False
  | .subleq a b next => op.Touches a ∧ op.Touches b ∧
    (next = here + 1 ∨ (zero ≤ b ∧ b ≤ negOne) ∧
      (first ≤ next ∧ next ≤ first + (operation op).size ∨ op.target? = some next))

theorem each_operation (op : Operation Int) (o : Int) :
    EachCell (HasCell op o) o ((operation op).cells o) := by
  -- `omega` is for the branches of the loops, which stay inside the block
  cases op with
  | jump target =>
    simp [cells_jump, EachCell, HasCell, Operation.Touches, Operation.target?, zero, negOne]
  | jumpVia a =>
    rw [cells_jumpVia]
    simp [EachCell, straight, HasCell, Operation.Touches, Operation.data, Operation.target?,
      zero, negOne, tempA]
  | move a b =>
    rw [cells_move]
    simp [EachCell, straight, HasCell, Operation.Touches, Operation.data, zero, negOne]
  | arith op a b c =>
    cases op with
    | add =>
      rw [cells_add]
      simp [EachCell, straight, HasCell, Operation.Touches, Operation.data, zero, negOne]
    | sub =>
      rw [cells_sub]
      simp [EachCell, straight, HasCell, Operation.Touches, Operation.data, zero, negOne, tempA,
        tempB]
    | mul =>
      rw [cells_mul]
      simp [EachCell, straight, HasCell, Operation.Touches, Operation.data, size_operation, zero,
        negOne, tempA, tempB, tempC]
      omega
    | div =>
      rw [cells_div]
      simp [EachCell, straight, HasCell, Operation.Touches, Operation.data, size_operation, zero,
        negOne, tempA, tempB, tempC]
      omega
  | branch cond a b target =>
    rw [cells_branch]
    cases cond <;>
      simp [EachCell, straight, HasCell, Operation.Touches, Operation.data, Operation.target?,
        exits, size_operation, zero, negOne, tempA, tempB, tempC]

end Code

end Subleq
