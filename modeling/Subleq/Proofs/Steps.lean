import Mathlib
import Subleq.Machine.Run

/-!
# Subleq.Proofs.Steps — what steps and runs do

Everything that is said elsewhere about executions rests on this module:

* `effect_step` lists, once and for all, what a step can do to the program counter and to the
  stored cells; an invariant of the machine is proved by cases on it (`after_induction`);
* `Runs` counts the steps that a machine makes without stopping, and `run_eq_of_runs` and
  `run_cases` tie it to `Machine.run`, which passes by empty cells at once.
-/

namespace Subleq

/-! ## Reading and writing -/

namespace Memory

/-- The port is at its address, and both an input and an output are installed. -/
structure Wired (m : Memory) : Prop where
  port : m.portAddress = Layout.ioPort
  input : m.input.isSome
  output : m.output.isSome

/-- What is known of a value that was read: unless it came from the port, it was stored. -/
def Reads (m : Memory) (address value : Int) : Prop :=
  cellOf address ≠ m.portAddress → m.cells[cellOf address]? = some value

/-- An address that is a cell's own number. -/
theorem cellOf_eq {a : Int} (h : 0 ≤ a) (h' : a < 256) : cellOf a = a := by
  unfold cellOf
  omega

theorem cellOf_mem (a : Int) : 0 ≤ cellOf a ∧ cellOf a ≤ 255 := by
  unfold cellOf
  omega

theorem isWritable_cellOf (a : Int) : Text.IsWritable (cellOf a) := by
  have hmem := cellOf_mem a
  exact Text.isWritable_of_lt (by omega) (by omega)

/-- Reading changes neither the stored cells nor what is attached. -/
theorem read_frame (m : Memory) (a : Int) :
    (m.read a).2.cells = m.cells ∧ (m.read a).2.portAddress = m.portAddress ∧
      (m.read a).2.output = m.output ∧ (m.read a).2.input.isSome = m.input.isSome := by
  have hcell : ∀ c, (m.readCell c).2 = m := by
    intro c
    unfold readCell
    split <;> rfl
  unfold read
  split
  · next i hi =>
    split
    · simp [ask, hi]
    · simp [hcell, hi]
  · simp [hcell]

theorem Wired.read {m : Memory} (h : m.Wired) (a : Int) : (m.read a).2.Wired := by
  obtain ⟨_, hport, houtput, hinput⟩ := m.read_frame a
  exact ⟨hport.trans h.port, hinput.trans h.input, (congrArg Option.isSome houtput).trans h.output⟩

theorem Wired.write {m : Memory} (h : m.Wired) (a v : Int) : (m.write a v).Wired := by
  unfold Memory.write
  split
  · split
    · exact ⟨h.port, h.input, h.output⟩
    · exact ⟨h.port, h.input, h.output⟩
  · exact ⟨h.port, h.input, h.output⟩

/-- A stored cell is read without any effect. -/
theorem read_stored {m : Memory} {a v : Int} (hport : cellOf a ≠ m.portAddress)
    (h : m.cells[cellOf a]? = some v) : m.read a = (.ok v, m) := by
  unfold read
  split <;> simp [hport, readCell, h]

theorem reads_of_read {m : Memory} {a v : Int} (h : (m.read a).1 = .ok v) : m.Reads a v := by
  intro hport
  have hread : m.read a = m.readCell (cellOf a) := by
    unfold read
    split <;> simp [hport]
  rw [hread] at h
  unfold readCell at h
  split at h
  · next w hw => simpa [hw] using h
  · simp at h

/-- A cell that is reported as never written is the one asked for, it is not stored, and it is not
the port of an input. -/
theorem read_uninitialized {m : Memory} {a c : Int}
    (h : (m.read a).1 = .error (.uninitialized c)) :
    c = cellOf a ∧ m.cells[cellOf a]? = none ∧ (m.input.isSome → cellOf a ≠ m.portAddress) := by
  have hcell : ∀ k, (m.readCell k).1 = .error (.uninitialized c) → c = k ∧ m.cells[k]? = none := by
    intro k hk
    unfold readCell at hk
    split at hk
    · simp at hk
    · next hnone =>
      simp only [Except.error.injEq, ReadFault.uninitialized.injEq] at hk
      exact ⟨hk.symm, hnone⟩
  unfold read at h
  split at h
  · next i hi =>
    split at h
    · -- what an input refuses is never reported as a missing cell
      cases hanswer : i.next.answer <;> simp [ask, hanswer, Except.mapError] at h
    · next hport =>
      obtain ⟨hc, hnone⟩ := hcell _ h
      exact ⟨hc, hnone, fun _ => hport⟩
  · next hi =>
    obtain ⟨hc, hnone⟩ := hcell _ h
    exact ⟨hc, hnone, by simp [hi]⟩

/-- Looking up after writing. What goes to the port is not stored. -/
theorem get?_write {m : Memory} (h : m.Wired) (a v k : Int) :
    (m.write a v).cells[k]? =
      if cellOf a ≠ Layout.ioPort ∧ k = cellOf a then some v else m.cells[k]? := by
  obtain ⟨name, hname⟩ := Option.isSome_iff_exists.mp h.output
  unfold write
  rw [hname]
  by_cases hport : cellOf a = Layout.ioPort
  · simp [h.port, hport]
  · simp only [h.port, hport, if_false, writeCell, AddressMap.get?_insert, ne_eq, not_false_eq_true,
      true_and, eq_comm]

/-- A cell that is stored stays stored, whatever is written. -/
theorem isSome_write {m : Memory} (h : m.Wired) (a v k : Int) (hk : (m.cells[k]?).isSome) :
    ((m.write a v).cells[k]?).isSome := by
  rw [get?_write h]
  split
  · rfl
  · exact hk

/-- What is stored after writing depends on the stored cells and on the output only. -/
theorem cells_write_congr {m n : Memory} (hcells : n.cells = m.cells)
    (hport : n.portAddress = m.portAddress) (houtput : n.output = m.output) (a v : Int) :
    (n.write a v).cells = (m.write a v).cells := by
  unfold write
  rw [houtput, hport]
  split
  · split
    · exact hcells
    · simp [writeCell, hcells]
  · simp [writeCell, hcells]

end Memory

/-! ## One step -/

/-- A fault is raised as it is, unless its text cannot be made. -/
theorem Fault.raised_eq_iff {f g : Fault} (h : g ≠ .unwritable) :
    f.raised = g ↔ f = g ∧ ∀ n ∈ f.numbers, Text.IsWritable n := by
  unfold raised
  split
  · next hw => exact ⟨fun heq => ⟨heq, hw⟩, And.left⟩
  · next hw => exact ⟨fun heq => absurd heq.symm h, fun heq => absurd heq.2 hw⟩

/-- A missing operand is reported only where one was looked for in vain. -/
theorem ReadFault.fault_eq_uninitialized_iff {cause : ReadFault} {pc c k : Int} :
    cause.fault pc = .uninitialized c k ↔
      cause = .uninitialized c ∧ k = pc ∧ Text.IsWritable c ∧ Text.IsWritable pc := by
  cases cause with
  | uninitialized a =>
    refine (Fault.raised_eq_iff (by simp)).trans ?_
    simp only [Fault.numbers, Fault.uninitialized.injEq, List.forall_mem_cons, uninitialized.injEq]
    grind
  | input cause =>
    cases cause with
    | uninitialized a =>
      refine (Fault.raised_eq_iff (by simp)).trans ?_
      simp
    | _ => simp [fault]

namespace Machine

/-- How a step ends that leaves the program counter at an address. -/
def goesOn (pc : Int) : StepOutcome := if maxPc ≤ pc then .halted else .running

/-- What a step can do to the program counter and to the stored cells. -/
inductive Effect (m : Machine) (outcome : StepOutcome) (m' : Machine) : Prop where
  /-- The program counter is outside of the program store. -/
  | halt (hpc : maxPc ≤ m.pc) (hend : outcome = .halted) (hpc' : m'.pc = m.pc)
      (hcells : m'.memory.cells = m.memory.cells)
  /-- An empty cell is passed by. -/
  | pass (hpc : m.pc < maxPc) (hcell : m.fetch m.pc = .empty) (hend : outcome = goesOn m'.pc)
      (hpc' : m'.pc = m.pc + 1) (hcells : m'.memory.cells = m.memory.cells)
  /-- A load writes its value and goes on at its successor. -/
  | load {v d next : Int} (hpc : m.pc < maxPc) (hcell : m.fetch m.pc = .load v d next)
      (hend : outcome = goesOn m'.pc) (hpc' : m'.pc = next)
      (hcells : m'.memory.cells = (m.memory.write d v).cells)
  /-- A subtraction reads both operands, writes the difference, and branches on its sign. -/
  | subtract {a b target x y : Int} (hpc : m.pc < maxPc)
      (hcell : m.fetch m.pc = .subleq a b target) (hne : Cell.subleq a b target ≠ .empty)
      (hx : m.memory.Reads a x) (hy : m.memory.Reads b y) (hend : outcome = goesOn m'.pc)
      (hpc' : m'.pc = if Byte.fold (y - x) ≤ 0 then target else m.pc + 1)
      (hcells : m'.memory.cells = (m.memory.write b (Byte.fold (y - x))).cells)
  /-- A subtraction of which an operand cannot be read has no effect. -/
  | fault {a b target : Int} {cause : Fault} (hpc : m.pc < maxPc)
      (hcell : m.fetch m.pc = .subleq a b target) (hne : Cell.subleq a b target ≠ .empty)
      (hend : outcome = .faulted cause)
      (hcause : ∀ c k, cause = .uninitialized c k → k = m.pc ∧
        (c = Memory.cellOf a ∨ c = Memory.cellOf b) ∧ m.memory.cells[c]? = none ∧
          c ≠ Layout.ioPort)
      (hpc' : m'.pc = m.pc) (hcells : m'.memory.cells = m.memory.cells)

theorem goesOn_ne_faulted (pc : Int) (cause : Fault) : goesOn pc ≠ .faulted cause := by
  unfold goesOn
  split <;> simp

@[simp] theorem settle_pc (m : Machine) : m.settle.2.pc = m.pc := by
  unfold settle
  split <;> rfl

theorem settle_fst (m : Machine) : m.settle.1 = goesOn m.settle.2.pc := by
  rw [settle_pc]
  unfold settle goesOn isHalted
  by_cases h : maxPc ≤ m.pc <;> simp [h]

@[simp] theorem settle_memory (m : Machine) : m.settle.2.memory = m.memory := by
  unfold settle
  split <;> rfl

@[simp] theorem settle_program (m : Machine) : m.settle.2.program = m.program := by
  unfold settle
  split <;> rfl

/-- The machine as it is when the execution of a cell begins. -/
def start (m : Machine) : Machine := { m with state := .running }

@[simp] theorem start_pc (m : Machine) : m.start.pc = m.pc := rfl

@[simp] theorem start_memory (m : Machine) : m.start.memory = m.memory := rfl

@[simp] theorem start_program (m : Machine) : m.start.program = m.program := rfl

/-! The four ways through a step. -/

theorem step_of_halted {m : Machine} (h : maxPc ≤ m.pc) :
    m.step = (.halted, { m with state := .halted }) := by
  simp [step, isHalted, h]

theorem step_of_empty {m : Machine} (h : m.pc < maxPc) (hcell : m.fetch m.pc = .empty) :
    m.step = ({ m with state := .running, pc := m.pc + 1 } : Machine).settle := by
  simp only [fetch] at hcell
  simp [step, isHalted, fetch, Int.not_le.mpr h, hcell]

theorem step_of_load {m : Machine} {v d next : Int} (h : m.pc < maxPc)
    (hcell : m.fetch m.pc = .load v d next) :
    m.step = ({ m.start.executeLoad v d next with
      steps := (m.start.executeLoad v d next).steps + 1 } : Machine).settle := by
  simp only [fetch] at hcell
  simp [step, isHalted, fetch, Int.not_le.mpr h, hcell, execute, start, conclude]

/-- What a load does. -/
theorem step_load {m : Machine} {v d next : Int} (h : m.pc < maxPc)
    (hcell : m.fetch m.pc = .load v d next) :
    m.step.1 = goesOn next ∧ m.step.2.pc = next ∧
      m.step.2.memory = m.memory.write d v := by
  rw [step_of_load h hcell]
  simp [settle_fst, executeLoad]

theorem step_of_subleq {m : Machine} {a b target : Int} (h : m.pc < maxPc)
    (hcell : m.fetch m.pc = .subleq a b target) (hne : Cell.subleq a b target ≠ .empty) :
    m.step = conclude m.pc (m.start.executeSubleq a b target) := by
  have hempty : (Cell.subleq a b target).isEmpty = false := by
    rw [← Bool.not_eq_true, Cell.isEmpty_iff]
    exact hne
  simp only [fetch] at hcell
  simp only [step, isHalted, fetch, hcell, execute, start, hempty, Bool.false_eq_true, if_false,
    decide_eq_true_eq, Int.not_le.mpr h]

/-- A subtraction either reads both operands and writes, or has no effect. -/
theorem executeSubleq_cases {m : Machine} (h : m.memory.Wired) (a b target : Int) :
    (∃ x y, m.memory.Reads a x ∧ m.memory.Reads b y ∧
      (m.executeSubleq a b target).1 = .ok () ∧
      (m.executeSubleq a b target).2.pc =
        (if Byte.fold (y - x) ≤ 0 then target else m.pc + 1) ∧
      (m.executeSubleq a b target).2.memory.cells =
        (m.memory.write b (Byte.fold (y - x))).cells) ∨
    (∃ cause, (m.executeSubleq a b target).1 = .error cause ∧
      (∀ c, cause = .uninitialized c → (c = Memory.cellOf a ∨ c = Memory.cellOf b) ∧
        m.memory.cells[c]? = none ∧ c ≠ Layout.ioPort) ∧
      (m.executeSubleq a b target).2.pc = m.pc ∧
      (m.executeSubleq a b target).2.memory.cells = m.memory.cells) := by
  -- reading may ask the port, but it changes no cell and leaves the port in its place
  obtain ⟨hcells, hport, houtput, hinput⟩ := m.memory.read_frame a
  obtain ⟨hcells', hport', houtput', hinput'⟩ := (m.memory.read a).2.read_frame b
  cases ha : m.memory.read a with
  | mk r m₁ =>
    rw [ha] at hcells hport houtput hinput hcells' hport' houtput' hinput'
    simp only at hcells hport houtput hinput hcells' hport' houtput' hinput'
    cases r with
    | error cause =>
      right
      refine ⟨cause, by simp [executeSubleq, ha], ?_, by simp [executeSubleq, ha], by
        simp [executeSubleq, ha, hcells]⟩
      rintro c rfl
      obtain ⟨rfl, hnone, hne⟩ := Memory.read_uninitialized (by rw [ha] : _ = _)
      exact ⟨Or.inl rfl, hnone, h.port ▸ hne h.input⟩
    | ok x =>
      cases hb : m₁.read b with
      | mk r m₂ =>
        rw [hb] at hcells' hport' houtput' hinput'
        simp only at hcells' hport' houtput' hinput'
        cases r with
        | error cause =>
          right
          refine ⟨cause, by simp [executeSubleq, ha, hb], ?_, by simp [executeSubleq, ha, hb], by
            simp [executeSubleq, ha, hb, hcells, hcells']⟩
          rintro c rfl
          -- the second operand is looked up in the memory that the first read has left
          obtain ⟨rfl, hnone, hne⟩ := Memory.read_uninitialized (by rw [hb] : _ = _)
          rw [hcells] at hnone
          have hin : m₁.input.isSome := hinput.trans h.input
          have hp : m₁.portAddress = Layout.ioPort := hport.trans h.port
          exact ⟨Or.inr rfl, hnone, hp ▸ hne hin⟩
        | ok y =>
          left
          refine ⟨x, y, Memory.reads_of_read (by rw [ha]), ?_, by simp [executeSubleq, ha, hb], by
            simp [executeSubleq, ha, hb], ?_⟩
          · have hy := Memory.reads_of_read (by rw [hb] : (m₁.read b).1 = .ok y)
            unfold Memory.Reads at hy ⊢
            rwa [hport, hcells] at hy
          · simp only [executeSubleq, ha, hb]
            exact Memory.cells_write_congr (hcells'.trans hcells) (hport'.trans hport)
              (houtput'.trans houtput) b _

/-- What a step does, by the cell that the program counter is at. -/
theorem effect_step {m : Machine} (h : m.memory.Wired) : m.Effect m.step.1 m.step.2 := by
  rcases Int.lt_or_le m.pc maxPc with hpc | hpc
  swap
  · rw [step_of_halted hpc]
    exact .halt hpc rfl rfl rfl
  cases hcell : m.fetch m.pc with
  | load v d next =>
    rw [step_of_load hpc hcell, settle_fst]
    exact .load hpc hcell rfl (by simp [executeLoad]) (by simp [executeLoad])
  | subleq a b target =>
    by_cases hne : Cell.subleq a b target = .empty
    · rw [hne] at hcell
      rw [step_of_empty hpc hcell, settle_fst]
      exact .pass hpc hcell rfl (by simp) (by simp)
    · have hwired : m.start.memory.Wired := by
        simpa using h
      rw [step_of_subleq hpc hcell hne]
      rcases executeSubleq_cases hwired a b target with
        ⟨x, y, hx, hy, hok, hpc', hcells⟩ | ⟨cause, herror, hcause, hpc', hcells⟩
      · -- both operands were read
        cases hexec : m.start.executeSubleq a b target with
        | mk r m' =>
          rw [hexec] at hok hpc' hcells
          simp only [start_memory, start_pc] at hx hy hok hpc' hcells
          subst hok
          simp only [conclude, settle_fst]
          exact .subtract hpc hcell hne hx hy rfl (by simpa using hpc') (by simpa using hcells)
      · -- one of them could not be read
        cases hexec : m.start.executeSubleq a b target with
        | mk r m' =>
          rw [hexec] at herror hpc' hcells
          simp only [start_memory, start_pc] at herror hpc' hcells hcause
          subst herror
          refine .fault hpc hcell hne rfl (fun c k hfault => ?_) hpc' hcells
          obtain ⟨rfl, rfl, -⟩ := ReadFault.fault_eq_uninitialized_iff.mp hfault
          exact ⟨rfl, hcause c rfl⟩

/-! ## Changes that a step does not notice -/

/-- A change of what a step does not look at: it keeps what a step looks at and leaves it to be set. -/
structure Unnoticed (change : Machine → Machine) : Prop where
  memory : ∀ m, (change m).memory = m.memory
  pc : ∀ m, (change m).pc = m.pc
  steps : ∀ m, (change m).steps = m.steps
  setMemory : ∀ m memory, change { m with memory } = { change m with memory }
  setPc : ∀ m pc, change { m with pc } = { change m with pc }
  setSteps : ∀ m steps, change { m with steps } = { change m with steps }
  state : ∀ m, (change m).state = m.state
  setState : ∀ m state, change { m with state } = { change m with state }

namespace Unnoticed

variable {change : Machine → Machine} (h : Unnoticed change)

include h

theorem settle (m : Machine) : (change m).settle = (m.settle.1, change m.settle.2) := by
  have hhalted : (change m).isHalted = m.isHalted := by
    unfold isHalted
    rw [h.pc]
  unfold Machine.settle
  rw [hhalted]
  split
  · exact congrArg (Prod.mk _) (h.setState m .halted).symm
  · rfl

theorem settle_setSteps (m : Machine) (n : Nat) : ({ change m with steps := n } : Machine).settle =
    (({ m with steps := n } : Machine).settle.1,
      change ({ m with steps := n } : Machine).settle.2) := by
  rw [← h.setSteps m n, h.settle]

theorem start (m : Machine) : (change m).start = change m.start := (h.setState m .running).symm

/-- What an instruction that goes on sets. -/
theorem setMemory_setPc (m : Machine) (memory : Memory) (pc : Int) :
    change { m with memory, pc } = { change m with memory, pc } := by
  have hpc := h.setPc { m with memory } pc
  rw [h.setMemory m memory] at hpc
  exact hpc

theorem executeLoad (m : Machine) (value dest next : Int) :
    (change m).executeLoad value dest next = change (m.executeLoad value dest next) := by
  unfold Machine.executeLoad
  rw [h.memory]
  exact (h.setMemory_setPc m _ next).symm

theorem executeSubleq (m : Machine) (a b target : Int) : (change m).executeSubleq a b target =
    ((m.executeSubleq a b target).1, change (m.executeSubleq a b target).2) := by
  unfold Machine.executeSubleq
  rw [h.memory]
  cases m.memory.read a with
  | mk x memory =>
    cases x with
    | error cause => exact congrArg (Prod.mk _) (h.setMemory m memory).symm
    | ok x =>
      simp only
      cases memory.read b with
      | mk y memory =>
        cases y with
        | error cause => exact congrArg (Prod.mk _) (h.setMemory m memory).symm
        | ok y =>
          simp only
          rw [h.pc]
          exact congrArg (Prod.mk _) (h.setMemory_setPc m _ _).symm

theorem conclude (pc : Int) (result : Except ReadFault Unit × Machine) :
    Machine.conclude pc (result.1, change result.2) =
      ((Machine.conclude pc result).1, change (Machine.conclude pc result).2) := by
  rcases result with ⟨cause | _, m⟩
  · simp only [Machine.conclude, h.state]
    exact congrArg (Prod.mk _) (h.setState m _).symm
  · simp only [Machine.conclude]
    rw [h.steps, h.settle_setSteps]

/-- Such a change makes no difference to a step that comes to the same cell. -/
theorem step (m : Machine) (hfetch : (change m).fetch m.pc = m.fetch m.pc) :
    (change m).step = (m.step.1, change m.step.2) := by
  rcases Int.lt_or_le m.pc maxPc with hpc | hpc
  swap
  · have hpc' : maxPc ≤ (change m).pc := by rwa [h.pc]
    rw [step_of_halted hpc, step_of_halted hpc']
    exact congrArg (Prod.mk _) (h.setState m .halted).symm
  have hpc' : (change m).pc < maxPc := by rwa [h.pc]
  have hcell' : (change m).fetch (change m).pc = m.fetch m.pc := by rw [h.pc, hfetch]
  cases hcell : m.fetch m.pc with
  | load v d next =>
    rw [step_of_load hpc hcell, step_of_load hpc' (hcell'.trans hcell), h.start, h.executeLoad,
      h.steps, h.settle_setSteps]
  | subleq a b target =>
    by_cases hne : Cell.subleq a b target = .empty
    · rw [hne] at hcell
      have hpass : change { m with state := .running, pc := m.pc + 1 } =
          { change m with state := .running, pc := m.pc + 1 } := by
        have hpc := h.setPc { m with state := .running } (m.pc + 1)
        rw [h.setState m .running] at hpc
        exact hpc
      rw [step_of_empty hpc hcell, step_of_empty hpc' (hcell'.trans hcell), h.pc, ← hpass, h.settle]
    · rw [step_of_subleq hpc hcell hne, step_of_subleq hpc' (hcell'.trans hcell) hne, h.start, h.pc,
        h.executeSubleq, h.conclude]

end Unnoticed

/-- Whether it succeeds or not, a subtraction keeps the program, and the port where it is. -/
theorem executeSubleq_frame (m : Machine) (a b target : Int) :
    (m.executeSubleq a b target).2.program = m.program ∧
      (m.memory.Wired → (m.executeSubleq a b target).2.memory.Wired) := by
  unfold executeSubleq
  have hread := fun h : m.memory.Wired => h.read a
  cases ha : m.memory.read a with
  | mk r m₁ =>
    rw [ha] at hread
    cases r with
    | error cause => exact ⟨rfl, hread⟩
    | ok x =>
      have hread' := fun h : m.memory.Wired => (hread h).read b
      simp only at hread hread' ⊢
      cases hb : m₁.read b with
      | mk r m₂ =>
        rw [hb] at hread'
        cases r with
        | error cause => exact ⟨rfl, hread'⟩
        | ok y => exact ⟨by simp, fun h => (hread' h).write b _⟩

/-- A step keeps the program, and the port where it is. -/
theorem step_frame (m : Machine) :
    m.step.2.program = m.program ∧ (m.memory.Wired → m.step.2.memory.Wired) := by
  rcases Int.lt_or_le m.pc maxPc with hpc | hpc
  swap
  · rw [step_of_halted hpc]
    exact ⟨rfl, id⟩
  cases hcell : m.fetch m.pc with
  | load v d next =>
    rw [step_of_load hpc hcell]
    simp only [settle_program, settle_memory, executeLoad, start_program, start_memory, true_and]
    exact fun h => h.write d v
  | subleq a b target =>
    by_cases hne : Cell.subleq a b target = .empty
    · rw [hne] at hcell
      rw [step_of_empty hpc hcell]
      simp
    · have hexec := m.start.executeSubleq_frame a b target
      rw [start_program, start_memory] at hexec
      rw [step_of_subleq hpc hcell hne]
      cases hrun : m.start.executeSubleq a b target with
      | mk r m' =>
        rw [hrun] at hexec
        cases r with
        | ok _ => simpa [conclude] using hexec
        | error cause => exact hexec

@[simp] theorem program_step (m : Machine) : m.step.2.program = m.program := m.step_frame.1

theorem wired_step {m : Machine} (h : m.memory.Wired) : m.step.2.memory.Wired :=
  m.step_frame.2 h

/-! ## Executed instructions -/

@[simp] theorem settle_steps (m : Machine) : m.settle.2.steps = m.steps := by
  unfold settle
  split <;> rfl

@[simp] theorem start_steps (m : Machine) : m.start.steps = m.steps := rfl

theorem executeSubleq_steps (m : Machine) (a b target : Int) :
    (m.executeSubleq a b target).2.steps = m.steps := by
  unfold executeSubleq
  split
  · rfl
  · split <;> rfl

theorem settle_ne_faulted (m : Machine) (cause : Fault) : m.settle.1 ≠ .faulted cause := by
  rw [settle_fst]
  exact goesOn_ne_faulted _ cause

/-- A step at a cell that is not empty executes an instruction unless it faults. -/
theorem steps_execute {m : Machine} (hpc : m.pc < maxPc) (hcell : m.fetch m.pc ≠ .empty) :
    ((∀ cause, m.step.1 ≠ .faulted cause) ∧ m.step.2.steps = m.steps + 1) ∨
      ∃ cause, m.step.1 = .faulted cause ∧ m.step.2.steps = m.steps := by
  cases hfetch : m.fetch m.pc with
  | load v d next =>
    rw [step_of_load hpc hfetch]
    exact .inl ⟨settle_ne_faulted _, by simp [executeLoad]⟩
  | subleq a b target =>
    have hkept := executeSubleq_steps m.start a b target
    rw [start_steps] at hkept
    rw [step_of_subleq hpc hfetch (hfetch ▸ hcell)]
    generalize m.start.executeSubleq a b target = result at hkept
    rcases result with ⟨cause | _, m'⟩
    · -- an operand could not be read
      exact .inr ⟨_, rfl, hkept⟩
    · exact .inl ⟨settle_ne_faulted _, by simpa [conclude] using hkept⟩

/-- A step anywhere else executes none. -/
theorem steps_pass {m : Machine} (h : m.pc < maxPc → m.fetch m.pc = .empty) :
    m.step.2.steps = m.steps := by
  rcases Int.lt_or_le m.pc maxPc with hpc | hpc
  · rw [step_of_empty hpc (h hpc)]
    exact settle_steps _
  · rw [step_of_halted hpc]

/-- A step executes at most one instruction, and none if it faults. -/
theorem steps_step_le (m : Machine) : m.steps ≤ m.step.2.steps ∧ m.step.2.steps ≤ m.steps + 1 ∧
    ∀ cause, m.step.1 = .faulted cause → m.step.2.steps = m.steps := by
  by_cases hcell : m.pc < maxPc ∧ m.fetch m.pc ≠ .empty
  · rcases steps_execute hcell.1 hcell.2 with ⟨hdone, hsteps⟩ | ⟨_, _, hsteps⟩
    · exact ⟨by omega, by omega, fun cause hfault => absurd hfault (hdone cause)⟩
    · exact ⟨by omega, by omega, fun _ _ => hsteps⟩
  · have hsteps := steps_pass (m := m) fun hpc => by
      by_contra hne
      exact hcell ⟨hpc, hne⟩
    exact ⟨by omega, by omega, fun _ _ => hsteps⟩

/-- A step that does not stop at a cell that is not empty executes an instruction. -/
theorem steps_step {m : Machine} (hrunning : m.step.1 = .running)
    (hcell : m.fetch m.pc ≠ .empty) : m.step.2.steps = m.steps + 1 := by
  have hpc : m.pc < maxPc := by
    by_contra hout
    rw [step_of_halted (Int.not_lt.mp hout)] at hrunning
    cases hrunning
  rcases steps_execute hpc hcell with ⟨_, hsteps⟩ | ⟨cause, hfault, _⟩
  · exact hsteps
  · rw [hfault] at hrunning
    cases hrunning

/-! ## Any number of steps -/

/-- The machine after a number of steps, whatever becomes of each of them. -/
def after (m : Machine) (n : Nat) : Machine := (fun m => m.step.2)^[n] m

@[simp] theorem after_zero (m : Machine) : m.after 0 = m := rfl

theorem after_succ (m : Machine) (n : Nat) : m.after (n + 1) = (m.after n).step.2 :=
  Function.iterate_succ_apply' (fun m : Machine => m.step.2) n m

theorem after_add (m : Machine) (n k : Nat) : m.after (n + k) = (m.after n).after k := by
  unfold after
  rw [Nat.add_comm, Function.iterate_add_apply]

/-- What holds at first and is kept by every step holds after any number of steps. -/
theorem after_induction {I : Machine → Prop} {m : Machine} (hstart : I m)
    (hstep : ∀ m, I m → I m.step.2) (n : Nat) : I (m.after n) := by
  induction n with
  | zero => exact hstart
  | succ n ih =>
    rw [after_succ]
    exact hstep _ ih

@[simp] theorem program_after (m : Machine) (n : Nat) : (m.after n).program = m.program :=
  after_induction (I := fun m' => m'.program = m.program) rfl
    (fun m' h => (program_step m').trans h) n

/-- A machine that was made for a program is wired when it begins. -/
theorem wired_reset (p : Program) (input : Input) (output : String) :
    (ofProgram p input output).reset.memory.Wired := ⟨rfl, rfl, rfl⟩

/-! ## Runs -/

/-- A number of steps, none of which stops the machine. -/
inductive Runs : Nat → Machine → Machine → Prop where
  | refl (m : Machine) : Runs 0 m m
  | step {n : Nat} {m m₁ m₂ : Machine} (first : m.step = (.running, m₁)) (rest : Runs n m₁ m₂) :
      Runs (n + 1) m m₂

theorem Runs.trans {n k : Nat} {m m₁ m₂ : Machine} (h : Runs n m m₁) (h' : Runs k m₁ m₂) :
    Runs (n + k) m m₂ := by
  induction h with
  | refl m => simpa using h'
  | @step n m m₀ m₁ first rest ih =>
    have hadd : n + 1 + k = n + k + 1 := by omega
    rw [hadd]
    exact .step first (ih h')

theorem Runs.one {m m' : Machine} (h : m.step = (.running, m')) : Runs 1 m m' :=
  .step h (.refl m')

/-- A load that goes on inside the program store is a run. -/
theorem runs_load {m : Machine} {v d next : Int} (hpc : m.pc < maxPc) (hnext : next < maxPc)
    (hcell : m.fetch m.pc = .load v d next) :
    ∃ m', Runs 1 m m' ∧ m'.pc = next ∧ m'.memory = m.memory.write d v ∧
      m'.program = m.program := by
  rcases step_load hpc hcell with ⟨hend, hpc', hmemory⟩
  have hstep : m.step = (.running, m.step.2) := by
    apply Prod.ext
    · rw [hend]
      exact if_neg (by omega)
    · rfl
  exact ⟨m.step.2, .one hstep, hpc', hmemory, program_step m⟩

/-- A row of loads, each of which goes on at the next address, is executed one by one. -/
theorem runs_loads (loads : List (Int × Int)) {m : Machine}
    (hroom : m.pc + loads.length < maxPc)
    (hcells : ∀ (i : Nat) v d, loads[i]? = some (v, d) →
      m.fetch (m.pc + i) = .load v d (m.pc + i + 1)) :
    ∃ m', Runs loads.length m m' ∧ m'.pc = m.pc + loads.length ∧
      m'.memory = loads.foldl (fun memory (v, d) => memory.write d v) m.memory ∧
      m'.program = m.program := by
  induction loads generalizing m with
  | nil => exact ⟨m, .refl m, by simp, rfl, rfl⟩
  | cons load loads ih =>
    simp only [List.length_cons] at hroom ⊢
    push_cast at hroom ⊢
    have hfirst := hcells 0 load.1 load.2 rfl
    simp only [Nat.cast_zero, Int.add_zero] at hfirst
    rcases runs_load (by omega) (by omega) hfirst with ⟨m₁, hrun, hpc, hmemory, hprogram⟩
    have hrest : ∀ (i : Nat) v d, loads[i]? = some (v, d) →
        m₁.fetch (m₁.pc + i) = .load v d (m₁.pc + i + 1) := by
      intro i v d hi
      have hcell := hcells (i + 1) v d (by simpa using hi)
      have hadd : m.pc + ((i + 1 : Nat) : Int) = m.pc + 1 + i := by
        push_cast
        omega
      rw [fetch, hprogram, hpc]
      rw [hadd] at hcell
      exact hcell
    rcases ih (by omega) hrest with ⟨m₂, hruns, hpc₂, hmemory₂, hprogram₂⟩
    refine ⟨m₂, ?_, by omega, ?_, hprogram₂.trans hprogram⟩
    · rw [Nat.add_comm]
      exact hrun.trans hruns
    · rw [hmemory₂, hmemory]
      rfl

theorem Runs.eq_after {n : Nat} {m m' : Machine} (h : Runs n m m') : m' = m.after n := by
  induction h with
  | refl m => rfl
  | @step n m m₁ m₂ first rest ih =>
    rw [Nat.add_comm, after_add, ih]
    have hone : m.after 1 = m₁ := by
      rw [after_succ, after_zero, first]
    rw [hone]

theorem Runs.steps_le {n : Nat} {m m' : Machine} (h : Runs n m m') : m.steps ≤ m'.steps := by
  induction h with
  | refl m => exact Nat.le_refl _
  | @step n m m₁ m₂ first rest ih =>
    have hfirst := m.steps_step_le.1
    rw [first] at hfirst
    exact Nat.le_trans hfirst ih

/-- A longer run goes through the machines of a shorter one. -/
theorem Runs.split {n k : Nat} {m m₂ : Machine} (h : Runs (n + k) m m₂) :
    ∃ m₁, Runs n m m₁ ∧ Runs k m₁ m₂ := by
  induction n generalizing m with
  | zero =>
    rw [Nat.zero_add] at h
    exact ⟨m, .refl m, h⟩
  | succ n ih =>
    have hadd : n + 1 + k = n + k + 1 := by omega
    rw [hadd] at h
    cases h with
    | step first rest =>
      obtain ⟨m₁, h₁, h₂⟩ := ih rest
      exact ⟨m₁, .step first h₁, h₂⟩

/-- No run is longer than one that leads to a machine that stops. -/
theorem Runs.le_of_stops {n k : Nat} {m m₁ m₂ : Machine} (h : Runs n m m₁)
    (hstop : m₁.step.1 ≠ .running) (h' : Runs k m m₂) : k ≤ n := by
  rcases Nat.lt_or_ge n k with hlt | hge
  · exfalso
    obtain ⟨j, rfl⟩ : ∃ j, k = n + (j + 1) := ⟨k - n - 1, by omega⟩
    obtain ⟨m', hm', hrest⟩ := h'.split
    have hsame : m' = m₁ := hm'.eq_after.trans h.eq_after.symm
    cases hrest with
    | step first rest =>
      rw [hsame] at first
      exact hstop (by rw [first])
  · exact hge

/-- A machine stops in one place only. -/
theorem Runs.eq_of_stops {n k : Nat} {m m₁ m₂ : Machine} (h : Runs n m m₁)
    (hstop : m₁.step.1 ≠ .running) (h' : Runs k m m₂) (hstop' : m₂.step.1 ≠ .running) :
    n = k ∧ m₁ = m₂ := by
  have hnk : n = k := Nat.le_antisymm (h'.le_of_stops hstop' h) (h.le_of_stops hstop h')
  subst hnk
  exact ⟨rfl, h.eq_after.trans h'.eq_after.symm⟩

/-- Passing by all empty cells at once comes to the same as doing so one by one: up to the next
instruction, or up to the end of the program store. -/
theorem step_skipEmpty (m : Machine) :
    ∃ k m₀, Runs k m m₀ ∧ m₀.steps = m.steps ∧ m.skipEmpty.step = m₀.step ∧
      (m₀.start = m.skipEmpty.start ∨
        maxPc ≤ m.skipEmpty.pc ∧ (m₀.pc < maxPc → m₀.fetch m₀.pc = .empty)) := by
  suffices key : ∀ room (m m' : Machine), (maxPc - m.pc).toNat = room →
      m' = { m with pc := m.program.skipEmpty room m.pc } →
      ∃ k m₀, Runs k m m₀ ∧ m₀.steps = m.steps ∧ m'.step = m₀.step ∧
        (m₀.start = m'.start ∨
          maxPc ≤ m'.pc ∧ (m₀.pc < maxPc → m₀.fetch m₀.pc = .empty)) from key _ m _ rfl rfl
  intro room
  induction room with
  | zero =>
    rintro m _ - rfl
    exact ⟨0, m, .refl m, rfl, rfl, .inl rfl⟩
  | succ room ih =>
    rintro m m' hroom rfl
    have hpc : m.pc < maxPc := by omega
    unfold Program.skipEmpty
    split
    swap
    · exact ⟨0, m, .refl m, rfl, rfl, .inl rfl⟩
    · next hempty =>
      have hcell : m.fetch m.pc = .empty := Cell.isEmpty_iff.mp hempty
      have hstep := step_of_empty hpc hcell
      by_cases hlast : maxPc ≤ m.pc + 1
      · -- the last cell of the store: one step past it halts
        have hzero : room = 0 := by omega
        subst hzero
        refine ⟨0, m, .refl m, rfl, ?_, .inr ⟨hlast, fun _ => hcell⟩⟩
        rw [hstep]
        simp [Program.skipEmpty, step, settle, isHalted, hlast]
      · have hrun : m.step = (.running, { m with state := .running, pc := m.pc + 1 }) := by
          rw [hstep]
          simp [settle, isHalted, hlast]
        rcases ih { m with state := .running, pc := m.pc + 1 } _ (by simp only; omega) rfl with
          ⟨k, m₀, hruns, hsteps, hsame, hwhere⟩
        exact ⟨k + 1, m₀, .step hrun hruns, hsteps, hsame, hwhere⟩

/-- A run with a limit follows the steps of the machine: it ends where the machine stops, or after
at least as many steps as the limit says. -/
theorem runFor_cases (n : Nat) (m : Machine) :
    (∃ k m₁ m₂, Runs k m m₁ ∧ m₁.step = (.halted, m₂) ∧ runFor n m = (.ok .halt, m₂)) ∨
    (∃ k m₁ m₂ cause, Runs k m m₁ ∧ m₁.step = (.faulted cause, m₂) ∧
      runFor n m = (.error cause, m₂)) ∨
    (∃ k m₁, Runs k m m₁ ∧ n ≤ k ∧ runFor n m = (.ok .stepLimit, m₁)) := by
  induction n generalizing m with
  | zero => exact Or.inr (Or.inr ⟨0, m, .refl m, Nat.le_refl 0, rfl⟩)
  | succ n ih =>
    cases hstep : m.skipEmpty.step with
    | mk o m' =>
      rw [runFor_succ, hstep]
      rcases step_skipEmpty m with ⟨k, m₀, hruns, -, hsame, -⟩
      rw [hstep] at hsame
      cases o with
      | halted => exact Or.inl ⟨k, m₀, m', hruns, hsame.symm, rfl⟩
      | faulted cause => exact Or.inr (Or.inl ⟨k, m₀, m', cause, hruns, hsame.symm, rfl⟩)
      | running =>
        have hfirst : Runs (k + 1) m m' := hruns.trans (.one hsame.symm)
        rcases ih m' with ⟨j, m₁, m₂, hj, hhalt, heq⟩ | ⟨j, m₁, m₂, cause, hj, hfault, heq⟩ |
          ⟨j, m₁, hj, hle, heq⟩
        · exact Or.inl ⟨_, m₁, m₂, hfirst.trans hj, hhalt, heq⟩
        · exact Or.inr (Or.inl ⟨_, m₁, m₂, cause, hfirst.trans hj, hfault, heq⟩)
        · exact Or.inr (Or.inr ⟨_, m₁, hfirst.trans hj, by omega, heq⟩)

/-- `runFor_cases` for a run from the start, which makes one step whatever the limit. -/
theorem run_cases (m : Machine) (limit : Int) :
    (∃ k m₁ m₂, Runs k m.reset m₁ ∧ m₁.step = (.halted, m₂) ∧ m.run limit = (.ok .halt, m₂)) ∨
    (∃ k m₁ m₂ cause, Runs k m.reset m₁ ∧ m₁.step = (.faulted cause, m₂) ∧
      m.run limit = (.error cause, m₂)) ∨
    (∃ k m₁, Runs k m.reset m₁ ∧ limit ≤ k ∧ m.run limit = (.ok .stepLimit, m₁)) := by
  unfold run
  split
  · rcases runFor_cases limit.toNat m.reset with h | h | ⟨k, m₁, hruns, hle, heq⟩
    · exact Or.inl h
    · exact Or.inr (Or.inl h)
    · exact Or.inr (Or.inr ⟨k, m₁, hruns, by omega, heq⟩)
  · cases hstep : m.reset.step with
    | mk o m' =>
      rw [runOnce_eq, hstep]
      cases o with
      | halted => exact Or.inl ⟨0, _, m', .refl _, hstep, rfl⟩
      | faulted cause => exact Or.inr (Or.inl ⟨0, _, m', cause, .refl _, hstep, rfl⟩)
      | running => exact Or.inr (Or.inr ⟨1, m', .one hstep, by omega, rfl⟩)

/-- Where the steps from the start come to a halt, so does every run with a higher limit. -/
theorem run_of_halts {m m₁ m₂ : Machine} {k : Nat} (h : Runs k m.reset m₁)
    (hhalt : m₁.step = (.halted, m₂)) {limit : Int} (hlimit : k < limit) :
    m.run limit = (.ok .halt, m₂) := by
  have hstop : m₁.step.1 ≠ .running := by
    simp [hhalt]
  rcases run_cases m limit with ⟨j, n₁, n₂, hj, hhalt', heq⟩ | ⟨j, n₁, n₂, cause, hj, hfault, heq⟩ |
    ⟨j, n₁, hj, hle, heq⟩
  · obtain ⟨_, rfl⟩ := h.eq_of_stops hstop hj (by simp [hhalt'])
    rw [heq, ← (Prod.mk.inj (hhalt.symm.trans hhalt')).2]
  · obtain ⟨_, rfl⟩ := h.eq_of_stops hstop hj (by simp [hfault])
    rw [hhalt] at hfault
    simp at hfault
  · have := h.le_of_stops hstop hj
    omega

end Machine

end Subleq
