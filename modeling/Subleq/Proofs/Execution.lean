import Mathlib
import Subleq.Proofs.Blocks
import Subleq.Proofs.Listing

/-!
# Subleq.Proofs.Execution — instructions executed on the way through a block

The machine counts the instructions that it executes, and passing by an empty cell does not count.
There are no empty cells in the code of an operation, so that on the way through a block as many
instructions are executed as steps are made (`Leads.exits`).

* `Executes` says that the machine has executed so many instructions and is at the end of a block for
  the first time. There is only one way to get there (`Executes.unique`).
* `Exits` says the same of a block that may be left by a branch.
* `placed` puts code and data together into a machine that stands before the code.
-/

namespace Subleq

open Layout

/-! ## Executed instructions -/

namespace Machine

variable {m m' : Machine} {n : Nat}

/-- Each step of a run that comes by no empty cell executes an instruction. -/
theorem Runs.steps_eq (h : Runs n m m')
    (hcells : ∀ j m₁, j < n → Runs j m m₁ → m₁.fetch m₁.pc ≠ .empty) :
    m'.steps = m.steps + n := by
  -- along the run: its first step is an instruction, and the cells of the rest are among its own
  induction h with
  | refl m => rfl
  | @step n m m₁ m₂ hfirst hrest ih =>
    have hone : m₁.steps = m.steps + 1 := by
      have hstep := steps_step (m := m) (by rw [hfirst]) (hcells 0 m (Nat.succ_pos n) (.refl m))
      rw [hfirst] at hstep
      exact hstep
    have hothers := ih fun j m' hj hruns => hcells (j + 1) m' (by omega) (.step hfirst hruns)
    rw [hothers, hone]
    omega

/-- The machine executes so many instructions and is then at an address; until then it is always
between its first cell and that address. -/
structure Executes (n : Nat) (m m' : Machine) (last : Int) : Prop where
  runs : Runs n m m'
  steps : m'.steps = m.steps + n
  pc : m'.pc = last
  inside : ∀ j m₁, 0 < j → j < n → Runs j m m₁ → m.pc < m₁.pc ∧ m₁.pc < last

/-- The machine executes so many instructions and is then at the address `exit`; until then it is
always between its first cell and the address `last`. -/
structure Exits (n : Nat) (m m' : Machine) (last exit : Int) : Prop where
  runs : Runs n m m'
  steps : m'.steps = m.steps + n
  pc : m'.pc = exit
  inside : ∀ j m₁, 0 < j → j < n → Runs j m m₁ → m.pc < m₁.pc ∧ m₁.pc < last

theorem Exits.executes {last : Int} (h : m.Exits n m' last last) : m.Executes n m' last :=
  ⟨h.runs, h.steps, h.pc, h.inside⟩

/-- A run that stays inside of a block without empty cells executes an instruction at each step. -/
theorem Runs.exits {last exit : Int} (h : Runs n m m') (hpc : m'.pc = exit)
    (hinside : ∀ j m₁, 0 < j → j < n → Runs j m m₁ → m.pc < m₁.pc ∧ m₁.pc < last)
    (hcells : ∀ x, m.pc ≤ x → x < last → m.program.fetch x ≠ .empty) (hlt : m.pc < last) :
    m.Exits n m' last exit := by
  refine ⟨h, h.steps_eq fun j m₁ hj hruns => ?_, hpc, hinside⟩
  -- on the way the machine is inside of the block, or still at its first cell
  have hprogram : m₁.program = m.program := by
    rw [hruns.eq_after, program_after]
  have hbetween : m.pc ≤ m₁.pc ∧ m₁.pc < last := by
    rcases Nat.eq_zero_or_pos j with rfl | hpos
    · cases hruns
      exact ⟨Int.le_refl _, hlt⟩
    · have hin := hinside j m₁ hpos hj hruns
      exact ⟨Int.le_of_lt hin.1, hin.2⟩
  rw [fetch, hprogram]
  exact hcells m₁.pc hbetween.1 hbetween.2

section Unique

variable {k : Nat} {m₁ m₂ : Machine} {last : Int} (h : m.Executes n m₁ last)
  (h' : m.Executes k m₂ last) (hlt : m.pc < last)

include h h' hlt

theorem Executes.not_lt : ¬n < k := by
  intro hnk
  have hpc := h.pc
  rcases Nat.eq_zero_or_pos n with rfl | hpos
  · have hsame : m₁ = m := h.runs.eq_after
    rw [hsame] at hpc
    omega
  · -- the longer way is still inside where the shorter one ends
    have hin := h'.inside n m₁ hpos hnk h.runs
    omega

/-- The first time that the machine is at an address further on is determined. -/
theorem Executes.unique : n = k ∧ m₁ = m₂ := by
  have hge := h.not_lt h' hlt
  have hle := h'.not_lt h hlt
  have heq : n = k := by omega
  subst heq
  exact ⟨rfl, h.runs.eq_after.trans h'.runs.eq_after.symm⟩

end Unique

/-! ## Walks -/

section Walks

variable {p : Program} {first last exit : Int} {σ σ' : Store}

/-- Where no cell of a block is empty, each step of a walk through it is an instruction. -/
theorem Leads.exits (h : Leads p first last n first σ exit σ') (hm : m.At p first σ)
    (hcells : ∀ x, first ≤ x → x < last → p.fetch x ≠ .empty) (hlt : first < last) :
    ∃ m', m.Exits n m' last exit ∧ m'.At p exit σ' := by
  rcases h m hm with ⟨m', hruns, hm', hinside⟩
  rw [← hm.pc] at hinside hcells hlt
  rw [← hm.program] at hcells
  exact ⟨m', hruns.exits hm'.pc hinside hcells hlt, hm'⟩

theorem Leads.executes (h : Leads p first last n first σ last σ') (hm : m.At p first σ)
    (hcells : ∀ x, first ≤ x → x < last → p.fetch x ≠ .empty) (hlt : first < last) :
    ∃ m', m.Executes n m' last ∧ m'.At p last σ' := by
  rcases h.exits hm hcells hlt with ⟨m', hexits, hm'⟩
  exact ⟨m', hexits.executes, hm'⟩

/-- There is no empty cell in the code of an operation. -/
theorem ne_empty_of_holds {p : Program} {op : Operation Int} {o x : Int} (ho : 0 ≤ o)
    (h : p.Holds o ((Code.operation op).cells o)) (hx : o ≤ x)
    (hx' : x < o + (Code.operation op).size) : p.fetch x ≠ .empty := by
  have hlength := Code.length_cells (.operation op) o
  obtain ⟨i, rfl⟩ : ∃ i : Nat, x = o + i := ⟨(x - o).toNat, by omega⟩
  have hi : i < ((Code.operation op).cells o).length := by omega
  rw [h i _ (List.getElem?_eq_getElem hi)]
  have hhas := eachCell_iff.mp (Code.each_operation op o) i _ (List.getElem?_eq_getElem hi)
  exact hhas.ne_empty (by omega)

end Walks

/-! ## From where a machine is -/

/-- The stored cells of a machine. -/
def store (m : Machine) : Store := fun a => m.memory.cells[a]?

theorem at_store (hwired : m.memory.Wired) : m.At m.program m.pc m.store :=
  ⟨rfl, hwired, rfl, fun _ => rfl⟩

theorem At.store_eq {p : Program} {pc : Int} {σ : Store} (h : m.At p pc σ) : m.store = σ :=
  funext h.cells

/-- A machine at the first cell of an operation follows each walk from there. -/
theorem Leads.exits_operation {op : Operation Int} {last exit : Int} {σ' : Store}
    (h : Leads m.program m.pc last n m.pc m.store exit σ')
    (hblock : m.program.Holds m.pc ((Code.operation op).cells m.pc)) (hstart : 0 ≤ m.pc)
    (hwired : m.memory.Wired) (hlast : m.pc + (Code.operation op).size = last) :
    ∃ m', m.Exits n m' last exit ∧ m'.store = σ' := by
  have hsize := (Code.operation op).size_pos
  rcases h.exits (at_store hwired)
    (fun x hx hx' => ne_empty_of_holds hstart hblock hx (by omega)) (by omega) with
    ⟨m', hexits, hm'⟩
  exact ⟨m', hexits, hm'.store_eq⟩

/-! ## Machines before their code -/

/-- Values for the reserved cells: the constants, and anything in the scratch cells. -/
def reserved : List (Int × Int) :=
  [(zero, 0), (tempC, 5), (tempB, -128), (tempA, 127), (negOne, -1)]

/-- A machine at the first of a row of cells, with values in some cells of its data store. -/
def placed (first : Int) (code : List Cell) (data : List (Int × Int)) : Machine where
  program := (∅ : Program).insertCells first code
  memory :=
    { cells := AddressMap.ofEntries data
      input := some (Input.ofScript [])
      output := some "out" }
  pc := first

theorem holds_placed (first : Int) (code : List Cell) (data : List (Int × Int)) :
    (placed first code data).program.Holds first code := by
  intro i c hi
  have hlt := (List.getElem?_eq_some_iff.mp hi).1
  have hindex : (first + (i : Int) - first).toNat = i := by omega
  have hget := Program.get?_insertCells ∅ first code (first + i)
  rw [if_pos (by omega), hindex, hi] at hget
  simp [placed, Program.fetch, hget]

theorem wired_placed (first : Int) (code : List Cell) (data : List (Int × Int)) :
    (placed first code data).memory.Wired := ⟨rfl, rfl, rfl⟩

end Machine

end Subleq
