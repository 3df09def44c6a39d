import Mathlib
import Subleq.Proofs.Steps
import Subleq.Proofs.Writing

/-!
# Subleq.Proofs.Atomicity — a step that faults has no effect

A subtraction reads both of its operands before it writes anything. There are two reasons for which
an operand cannot be read: there is nothing at its address (`Memory.Lacks`), or the input is asked
and gives no number (`Memory.Refuses`). Which of them ends a step is said by the state before it
(`Machine.faulted_iff`). While the machine is traced there is a third one: the instruction cannot be
entered into the trace (`Tracer.faulted_iff`).

Whatever the reason, all that the step has done to the data store is to ask the input
(`Memory.OnlyAsked`), and the machine is where it was (`Tracer.step_atomic`).
-/

namespace Subleq

/-! ## Reading -/

namespace Memory

variable {m m₁ m₂ : Memory} {a b c : Int} {i : Input} {cause : InputFault}

/-- Reading the address asks the input. -/
def Asks (m : Memory) (a : Int) : Prop := m.input.isSome ∧ cellOf a = m.portAddress

/-- There is nothing to read at the address: its cell is not stored, and the input is not asked
either. -/
def Lacks (m : Memory) (a : Int) : Prop := ¬m.Asks a ∧ m.cells[cellOf a]? = none

/-- Reading the address asks the input, which gives no number. -/
def Refuses (m : Memory) (a : Int) (cause : InputFault) : Prop :=
  ∃ i, m.input = some i ∧ cellOf a = m.portAddress ∧ i.next.answer = .error cause

/-- The cell is that of the first of two addresses at which there is nothing to read. -/
def FirstLack (m : Memory) (a b c : Int) : Prop :=
  m.Lacks a ∧ c = cellOf a ∨ ¬m.Lacks a ∧ m.Lacks b ∧ c = cellOf b

/-- The input refuses to reply to the first of two addresses that asks it, or to the second one after it
has replied to the first. -/
def FirstRefusal (m : Memory) (a b : Int) (cause : InputFault) : Prop :=
  m.Refuses a cause ∨ ¬m.Lacks a ∧ (∀ cause, ¬m.Refuses a cause) ∧ (m.read a).2.Refuses b cause

/-- The first of two operands that cannot be read cannot be read for this reason. -/
def FailsReading (m : Memory) (a b : Int) : ReadFault → Prop
  | .uninitialized c => m.FirstLack a b c ∧ ∀ cause, ¬m.Refuses a cause
  | .input cause => m.FirstRefusal a b cause

theorem Refuses.asks (h : m.Refuses a cause) : m.Asks a := by
  rcases h with ⟨i, hi, hport, -⟩
  exact ⟨by rw [hi]; rfl, hport⟩

/-- Where there is nothing to read, the input is not asked. -/
theorem Lacks.not_refuses (h : m.Lacks a) (cause : InputFault) : ¬m.Refuses a cause :=
  fun hr => h.1 hr.asks

theorem read_of_asks (hi : m.input = some i) (hport : cellOf a = m.portAddress) :
    m.read a = m.ask i := by
  simp [read, hi, hport]

theorem read_of_not_asks (h : ¬m.Asks a) : m.read a = m.readCell (cellOf a) := by
  unfold read
  split
  · next i hi =>
    have hport : cellOf a ≠ m.portAddress := fun heq => h ⟨by rw [hi]; rfl, heq⟩
    rw [if_neg hport]
  · rfl

/-- The three ways in which a read ends. -/
theorem read_cases (m : Memory) (a : Int) :
    (m.Lacks a ∧ m.read a = (.error (.uninitialized (cellOf a)), m)) ∨
    (∃ cause, m.Refuses a cause ∧ (m.read a).1 = .error (.input cause)) ∨
    (¬m.Lacks a ∧ (∀ cause, ¬m.Refuses a cause) ∧ ∃ v, (m.read a).1 = .ok v) := by
  by_cases hasks : m.Asks a
  · obtain ⟨i, hi⟩ := Option.isSome_iff_exists.mp hasks.1
    have hlacks : ¬m.Lacks a := fun hl => hl.1 hasks
    rw [read_of_asks hi hasks.2]
    cases hanswer : i.next.answer with
    | error cause =>
      refine .inr (.inl ⟨cause, ⟨i, hi, hasks.2, hanswer⟩, ?_⟩)
      simp [ask, hanswer, Except.mapError]
    | ok v =>
      refine .inr (.inr ⟨hlacks, ?_, v, by simp [ask, hanswer, Except.mapError]⟩)
      rintro cause ⟨j, hj, -, hrefused⟩
      obtain rfl : i = j := Option.some.inj (hi.symm.trans hj)
      rw [hanswer] at hrefused
      cases hrefused
  · have hrefuses : ∀ cause, ¬m.Refuses a cause := fun cause hr => hasks hr.asks
    rw [read_of_not_asks hasks]
    cases hcell : m.cells[cellOf a]? with
    | none => exact .inl ⟨⟨hasks, hcell⟩, by simp [readCell, hcell]⟩
    | some v =>
      refine .inr (.inr ⟨?_, hrefuses, v, by simp [readCell, hcell]⟩)
      rintro ⟨-, hnone⟩
      rw [hcell] at hnone
      cases hnone

/-! ## Asking the input -/

/-- Nothing has been done to a data store but that its input was asked. -/
structure OnlyAsked (m m' : Memory) : Prop where
  cells : m'.cells = m.cells
  portAddress : m'.portAddress = m.portAddress
  input : m'.input.isSome = m.input.isSome
  output : m'.output = m.output
  watchers : m'.watchers = m.watchers
  history : ∃ replies : List Reply, m'.history = m.history ++ replies.map .asked

theorem OnlyAsked.refl (m : Memory) : m.OnlyAsked m := ⟨rfl, rfl, rfl, rfl, rfl, [], by simp⟩

theorem OnlyAsked.trans (h : m.OnlyAsked m₁) (h' : m₁.OnlyAsked m₂) : m.OnlyAsked m₂ := by
  obtain ⟨replies, hreplies⟩ := h.history
  obtain ⟨replies', hreplies'⟩ := h'.history
  exact ⟨h'.cells.trans h.cells, h'.portAddress.trans h.portAddress, h'.input.trans h.input,
    h'.output.trans h.output, h'.watchers.trans h.watchers, replies ++ replies', by
      rw [hreplies', hreplies, List.map_append, List.append_assoc]⟩

theorem onlyAsked_read (m : Memory) (a : Int) : m.OnlyAsked (m.read a).2 := by
  by_cases hasks : m.Asks a
  · obtain ⟨i, hi⟩ := Option.isSome_iff_exists.mp hasks.1
    rw [read_of_asks hi hasks.2]
    exact ⟨rfl, rfl, by simp [ask, hi], rfl, rfl, [i.next], by simp [ask, history]⟩
  · rw [read_of_not_asks hasks]
    unfold readCell
    split
    · exact .refl m
    · exact .refl m

/-- Asking the input leaves it an input, and the cells as they were, so that the same addresses have
nothing to read. -/
theorem OnlyAsked.lacks_iff (h : m.OnlyAsked m₁) (a : Int) : m₁.Lacks a ↔ m.Lacks a := by
  unfold Lacks Asks
  rw [h.input, h.portAddress, h.cells]

theorem OnlyAsked.asks_iff (h : m.OnlyAsked m₁) (a : Int) : m₁.Asks a ↔ m.Asks a := by
  unfold Asks
  rw [h.input, h.portAddress]

/-! ## Both operands -/

/-- Reads two operands, the second one only if there is a first. -/
def readBoth (m : Memory) (a b : Int) : Except ReadFault (Int × Int) × Memory :=
  match m.read a with
  | (.error cause, m₁) => (.error cause, m₁)
  | (.ok x, m₁) =>
    match m₁.read b with
    | (.error cause, m₂) => (.error cause, m₂)
    | (.ok y, m₂) => (.ok (x, y), m₂)

theorem onlyAsked_readBoth (m : Memory) (a b : Int) : m.OnlyAsked (m.readBoth a b).2 := by
  have ha := m.onlyAsked_read a
  unfold readBoth
  cases hread : m.read a with
  | mk r m₁ =>
    rw [hread] at ha
    cases r with
    | error cause => exact ha
    | ok x =>
      have hb := m₁.onlyAsked_read b
      simp only
      cases hread' : m₁.read b with
      | mk r m₂ =>
        rw [hread'] at hb
        cases r with
        | error cause => exact ha.trans hb
        | ok y => exact ha.trans hb

theorem Refuses.unique {cause' : InputFault} (h : m.Refuses a cause) (h' : m.Refuses a cause') :
    cause = cause' := by
  rcases h with ⟨i, hi, -, hanswer⟩
  rcases h' with ⟨j, hj, -, hanswer'⟩
  cases hi.symm.trans hj
  exact Except.error.inj (hanswer.symm.trans hanswer')

theorem read_input_iff : (m.read a).1 = .error (.input cause) ↔ m.Refuses a cause := by
  rcases m.read_cases a with ⟨hlacks, hread⟩ | ⟨cause', hrefuses, hread⟩ | ⟨-, hrefuses, x, hread⟩
  · simp [hread, hlacks.not_refuses]
  · rw [hread]
    constructor
    · rintro ⟨⟩
      exact hrefuses
    · intro h
      rw [hrefuses.unique h]
  · simp [hread, hrefuses]

theorem read_uninitialized_iff :
    (m.read a).1 = .error (.uninitialized c) ↔ m.Lacks a ∧ c = cellOf a := by
  rcases m.read_cases a with ⟨hlacks, hread⟩ | ⟨cause, hrefuses, hread⟩ | ⟨hlacks, -, x, hread⟩
  · simp [hread, hlacks, eq_comm]
  · have hlacks : ¬m.Lacks a := fun hl => hl.not_refuses cause hrefuses
    simp [hread, hlacks]
  · simp [hread, hlacks]

theorem read_ok_iff : (∃ x, (m.read a).1 = .ok x) ↔ ¬m.Lacks a ∧ ∀ cause, ¬m.Refuses a cause := by
  rcases m.read_cases a with ⟨hlacks, hread⟩ | ⟨cause, hrefuses, hread⟩ |
    ⟨hlacks, hrefuses, x, hread⟩
  · simp [hread, hlacks]
  · simp only [hread, reduceCtorEq, exists_false, false_iff]
    exact fun h => h.2 cause hrefuses
  · simp [hread, hlacks, hrefuses]

/-- The second operand is read only if the first one can be. -/
theorem readBoth_error_iff {fault : ReadFault} : (m.readBoth a b).1 = .error fault ↔
    (m.read a).1 = .error fault ∨
      (∃ x, (m.read a).1 = .ok x) ∧ ((m.read a).2.read b).1 = .error fault := by
  unfold readBoth
  rcases m.read a with ⟨fault' | x, m₁⟩
  · simp
  · simp only
    rcases m₁.read b with ⟨fault' | y, m₂⟩ <;> simp

theorem failsReading_iff {fault : ReadFault} :
    (m.readBoth a b).1 = .error fault ↔ m.FailsReading a b fault := by
  rw [readBoth_error_iff, read_ok_iff]
  cases fault with
  | uninitialized c =>
    -- reading the first operand does not change whether there is something at the second one
    rw [read_uninitialized_iff, read_uninitialized_iff, (m.onlyAsked_read a).lacks_iff b]
    constructor
    · rintro (⟨hlacks, hc⟩ | ⟨⟨hlacks, hrefuses⟩, hlacks', hc⟩)
      · exact ⟨.inl ⟨hlacks, hc⟩, hlacks.not_refuses⟩
      · exact ⟨.inr ⟨hlacks, hlacks', hc⟩, hrefuses⟩
    · rintro ⟨⟨hlacks, hc⟩ | ⟨hlacks, hlacks', hc⟩, hrefuses⟩
      · exact .inl ⟨hlacks, hc⟩
      · exact .inr ⟨⟨hlacks, hrefuses⟩, hlacks', hc⟩
  | input cause =>
    rw [read_input_iff, read_input_iff, and_assoc]
    rfl

end Memory

/-! ## Steps -/

namespace Machine

variable {m : Machine} {a b c target : Int} {cause : Fault} {fault : ReadFault}

/-- The machine is at a subtraction of which an operand cannot be read. -/
def FailsReading (m : Machine) (fault : ReadFault) : Prop :=
  m.pc < maxPc ∧ ∃ a b target, m.fetch m.pc = .subleq a b target ∧
    Cell.subleq a b target ≠ .empty ∧ m.memory.FailsReading a b fault

/-- The address of a missing cell is one of the data store, and can be written. -/
theorem FailsReading.isWritable (h : m.FailsReading (.uninitialized c)) : Text.IsWritable c := by
  rcases h with ⟨-, a, b, -, -, -, ⟨-, rfl⟩ | ⟨-, -, rfl⟩, -⟩
  · exact Memory.isWritable_cellOf a
  · exact Memory.isWritable_cellOf b

/-- A subtraction reads both operands and then writes. -/
theorem executeSubleq_eq (m : Machine) (a b target : Int) : m.executeSubleq a b target =
    match m.memory.readBoth a b with
    | (.error fault, memory) => (.error fault, { m with memory })
    | (.ok (x, y), memory) => (.ok (), { m with
        memory := memory.write b (Byte.fold (y - x))
        pc := if Byte.fold (y - x) ≤ 0 then target else m.pc + 1 }) := by
  unfold executeSubleq Memory.readBoth
  cases m.memory.read a with
  | mk r m₁ =>
    cases r with
    | error fault => rfl
    | ok x =>
      simp only
      cases m₁.read b with
      | mk r m₂ => cases r <;> rfl

/-- A step at a subtraction of which an operand cannot be read. -/
theorem FailsReading.step (h : m.FailsReading fault) : ∃ memory, m.memory.OnlyAsked memory ∧
    m.step = conclude m.pc (.error fault, { m.start with memory }) := by
  rcases h with ⟨hpc, a, b, target, hcell, hne, hfails⟩
  have hread := Memory.failsReading_iff.mpr hfails
  have hasked := m.memory.onlyAsked_readBoth a b
  rw [step_of_subleq hpc hcell hne, executeSubleq_eq, start_memory]
  generalize m.memory.readBoth a b = result at hread hasked
  rcases result with ⟨fault' | xy, memory⟩
  · cases hread
    exact ⟨memory, hasked, rfl⟩
  · cases hread

/-- A step faults exactly if it is at a subtraction of which an operand cannot be read. -/
theorem faulted_iff : m.step.1 = .faulted cause ↔
    ∃ fault, m.FailsReading fault ∧ cause = fault.fault m.pc := by
  constructor
  · intro h
    rcases Int.lt_or_le m.pc maxPc with hpc | hpc
    swap
    · rw [step_of_halted hpc] at h
      cases h
    cases hcell : m.fetch m.pc with
    | load v d next =>
      rw [step_of_load hpc hcell] at h
      exact absurd h (settle_ne_faulted _ _)
    | subleq a b target =>
      by_cases hne : Cell.subleq a b target = .empty
      · rw [hne] at hcell
        rw [step_of_empty hpc hcell] at h
        exact absurd h (settle_ne_faulted _ _)
      · rw [step_of_subleq hpc hcell hne, executeSubleq_eq, start_memory] at h
        rcases hread : m.memory.readBoth a b with ⟨fault | xy, memory⟩ <;> rw [hread] at h
        · cases h
          exact ⟨fault, ⟨hpc, a, b, target, hcell, hne,
            Memory.failsReading_iff.mp (congrArg Prod.fst hread)⟩, rfl⟩
        · exact absurd h (settle_ne_faulted _ _)
  · rintro ⟨fault, hfails, rfl⟩
    rcases hfails.step with ⟨memory, -, hstep⟩
    rw [hstep]
    rfl

/-- All that a step that faults does to the machine is to ask the input, and to stop it if a cell is
missing. -/
theorem FailsReading.kept (h : m.FailsReading fault) :
    m.step.2.pc = m.pc ∧ m.step.2.steps = m.steps ∧ m.step.2.program = m.program ∧
      m.memory.OnlyAsked m.step.2.memory ∧
      m.step.2.state = if fault.isMissing then .halted else .running := by
  rcases h.step with ⟨memory, hasked, hstep⟩
  rw [hstep]
  exact ⟨rfl, rfl, rfl, hasked, rfl⟩

/-- The same cell is missing when the step is tried again, unless the first operand asks the input
again. -/
theorem FailsReading.again (h : m.FailsReading (.uninitialized c))
    (hcell : m.fetch m.pc = .subleq a b target) (hasks : ¬m.memory.Asks a) :
    m.step.2.FailsReading (.uninitialized c) := by
  rcases h.kept with ⟨hpc', -, hprogram, hasked, -⟩
  rcases h with ⟨hpc, a', b', target', hcell', hne, hlack, -⟩
  cases hcell.symm.trans hcell'
  -- the machine is at the same cell, and the same operand has nothing to read
  have hsame : m.step.2.fetch m.step.2.pc = m.fetch m.pc := by
    rw [fetch, fetch, hprogram, hpc']
  have hlack' : m.step.2.memory.FirstLack a b c := by
    unfold Memory.FirstLack
    rw [hasked.lacks_iff, hasked.lacks_iff]
    exact hlack
  exact ⟨hpc'.symm ▸ hpc, a, b, target, hsame.trans hcell, hne, hlack',
    fun cause hr => hasks ((hasked.asks_iff a).mp hr.asks)⟩

end Machine

/-! ## Texts of faults -/

namespace ReadFault

variable {fault : ReadFault} {c pc k : Int} {refusal : InputFault}

theorem fault_eq_relayed_iff : fault.fault pc = .relayed c k ↔
    fault = .input (.uninitialized c) ∧ k = pc ∧ Text.IsWritable c ∧ Text.IsWritable pc := by
  cases fault with
  | uninitialized a =>
    refine (Fault.raised_eq_iff (by simp)).trans ?_
    simp
  | input cause =>
    cases cause with
    | uninitialized a =>
      refine (Fault.raised_eq_iff (by simp)).trans ?_
      simp only [Fault.numbers, Fault.relayed.injEq, List.forall_mem_cons, input.injEq,
        InputFault.uninitialized.injEq]
      grind
    | _ => simp [fault]

theorem fault_eq_input_iff : fault.fault pc = .input refusal ↔
    fault = .input refusal ∧ ∀ c, refusal ≠ .uninitialized c := by
  cases fault with
  | uninitialized a =>
    refine (Fault.raised_eq_iff (by simp)).trans ?_
    simp
  | input cause =>
    cases cause with
    | uninitialized a =>
      -- this refusal is reported as a missing operand is
      refine (Fault.raised_eq_iff (by simp)).trans ⟨nofun, ?_⟩
      rintro ⟨⟨⟩, hother⟩
      exact absurd rfl (hother a)
    | _ => simp only [fault, Fault.input.injEq, input.injEq]; grind

theorem fault_eq_unwritable_iff : fault.fault pc = .unwritable ↔
    ∃ c, (fault = .uninitialized c ∨ fault = .input (.uninitialized c)) ∧
      ¬(Text.IsWritable c ∧ Text.IsWritable pc) := by
  cases fault with
  | uninitialized a => simp [fault, Fault.raised, Fault.numbers]
  | input cause =>
    cases cause with
    | uninitialized a => simp [fault, Fault.raised, Fault.numbers]
    | _ => simp [fault]

end ReadFault

/-! ## Traced steps -/

namespace Tracer

variable {t : Tracer} {cause : Fault} {a b c target pc : Int}

/-- A step faults exactly if the instruction cannot be entered into the trace or an operand cannot be
read. -/
theorem faulted_iff : t.step.1 = .faulted cause ↔ ¬t.CanEnter ∧ cause = .unwritable ∨
    t.CanEnter ∧ ∃ fault, t.machine.FailsReading fault ∧ cause = fault.fault t.machine.pc := by
  by_cases h : t.CanEnter
  · rw [step_of_canEnter h, Machine.faulted_iff]
    simp only [h, not_true_eq_false, false_and, false_or, true_and]
  · rw [step_of_not_canEnter h]
    simp only [h, not_false_eq_true, true_and, false_and, or_false, StepOutcome.faulted.injEq, eq_comm]

theorem kept_of_faulted (h : t.step.1 = .faulted cause) :
    t.step.2.machine.pc = t.machine.pc ∧ t.step.2.machine.steps = t.machine.steps ∧
      t.step.2.machine.program = t.machine.program ∧
      t.machine.memory.OnlyAsked t.step.2.machine.memory := by
  rcases faulted_iff.mp h with ⟨henter, -⟩ | ⟨henter, fault, hfails, -⟩
  · rw [step_of_not_canEnter henter]
    exact ⟨rfl, rfl, rfl, .refl _⟩
  · rw [step_of_canEnter henter]
    rcases hfails.kept with ⟨hpc, hsteps, hprogram, hasked, -⟩
    exact ⟨hpc, hsteps, hprogram, hasked⟩

theorem state_of_failsReading {fault : ReadFault} (henter : t.CanEnter)
    (h : t.machine.FailsReading fault) :
    t.step.2.machine.state = if fault.isMissing then .halted else .running := by
  rw [step_of_canEnter henter]
  exact h.kept.2.2.2.2

theorem uninitialized_iff : t.step.1 = .faulted (.uninitialized c pc) ↔
    t.CanEnter ∧ pc = t.machine.pc ∧ Text.IsWritable pc ∧
      t.machine.FailsReading (.uninitialized c) := by
  rw [faulted_iff]
  constructor
  · rintro (⟨-, ⟨⟩⟩ | ⟨henter, fault, hfails, hfault⟩)
    rcases ReadFault.fault_eq_uninitialized_iff.mp hfault.symm with ⟨rfl, rfl, -, hwritable⟩
    exact ⟨henter, rfl, hwritable, hfails⟩
  · rintro ⟨henter, rfl, hwritable, hfails⟩
    exact .inr ⟨henter, _, hfails, (ReadFault.fault_eq_uninitialized_iff.mpr
      ⟨rfl, rfl, hfails.isWritable, hwritable⟩).symm⟩

theorem relayed_iff : t.step.1 = .faulted (.relayed c pc) ↔
    t.CanEnter ∧ pc = t.machine.pc ∧ Text.IsWritable c ∧ Text.IsWritable pc ∧
      t.machine.FailsReading (.input (.uninitialized c)) := by
  rw [faulted_iff]
  constructor
  · rintro (⟨-, ⟨⟩⟩ | ⟨henter, fault, hfails, hfault⟩)
    rcases ReadFault.fault_eq_relayed_iff.mp hfault.symm with ⟨rfl, rfl, haddress, hwritable⟩
    exact ⟨henter, rfl, haddress, hwritable, hfails⟩
  · rintro ⟨henter, rfl, haddress, hwritable, hfails⟩
    exact .inr ⟨henter, _, hfails, (ReadFault.fault_eq_relayed_iff.mpr
      ⟨rfl, rfl, haddress, hwritable⟩).symm⟩

theorem input_iff {refusal : InputFault} : t.step.1 = .faulted (.input refusal) ↔
    t.CanEnter ∧ t.machine.FailsReading (.input refusal) ∧ ∀ c, refusal ≠ .uninitialized c := by
  rw [faulted_iff]
  constructor
  · rintro (⟨-, ⟨⟩⟩ | ⟨henter, fault, hfails, hfault⟩)
    rcases ReadFault.fault_eq_input_iff.mp hfault.symm with ⟨rfl, hother⟩
    exact ⟨henter, hfails, hother⟩
  · rintro ⟨henter, hfails, hother⟩
    exact .inr ⟨henter, _, hfails, (ReadFault.fault_eq_input_iff.mpr ⟨rfl, hother⟩).symm⟩

theorem unwritable_iff : t.step.1 = .faulted .unwritable ↔ ¬t.CanEnter ∨ ∃ c,
    (t.machine.FailsReading (.uninitialized c) ∨
      t.machine.FailsReading (.input (.uninitialized c))) ∧
    ¬(Text.IsWritable c ∧ Text.IsWritable t.machine.pc) := by
  rw [faulted_iff]
  by_cases henter : t.CanEnter
  · simp only [henter, not_true_eq_false, false_and, false_or, true_and, eq_comm (a := Fault.unwritable),
      ReadFault.fault_eq_unwritable_iff]
    grind
  · simp [henter]

/-- The same cell is missing when the step is tried again, unless the first operand asks the input
again. -/
theorem step_again (h : t.step.1 = .faulted (.uninitialized c pc))
    (hcell : t.machine.fetch t.machine.pc = .subleq a b target) (hasks : ¬t.machine.memory.Asks a) :
    t.step.2.step.1 = t.step.1 := by
  rcases uninitialized_iff.mp h with ⟨henter, hpc, hwritable, hfails⟩
  rcases kept_of_faulted h with ⟨hpc', -, hprogram, -⟩
  have hstep := step_of_canEnter henter
  rw [h]
  refine uninitialized_iff.mpr ⟨?_, hpc.trans hpc'.symm, hwritable, ?_⟩
  · -- the same line is entered once more
    have hentry : t.step.2.entering? = t.entering? := by
      have htracing : t.step.2.tracing = t.tracing := by rw [hstep]
      unfold entering? Machine.next? Machine.isHalted Machine.fetch
      rw [htracing, hpc', hprogram]
    intro e he
    exact henter e (hentry ▸ he)
  · rw [hstep]
    exact hfails.again hcell hasks

/-! ## Results -/

/-- A step that faults leaves program counter, instruction count, program and stored cells as they
were; nothing is handed out and no watcher sees anything, though the input may have been asked.

A cell is reported as missing, with the address of the instruction, exactly if the machine is at a
subtraction, the cell is that of the first operand with nothing to read, and the input has not
refused to reply before; or the input itself has missed a cell. The machine has halted then, while it is
still running if the input refused to reply for another reason. The same fault comes again if the step
is tried again, unless the first operand asks the input.

A number that is too long to be written is a fault of its own: before the instruction is executed, if it
is in the line that is entered into the trace, and afterwards, if it is in the report of a missing
cell. -/
theorem step_atomic (t : Tracer) :
    (∀ cause, t.step.1 = .faulted cause →
      t.step.2.machine.pc = t.machine.pc ∧ t.step.2.machine.steps = t.machine.steps ∧
      t.step.2.machine.program = t.machine.program ∧
      t.machine.memory.OnlyAsked t.step.2.machine.memory) ∧
    (∀ c pc, t.step.1 = .faulted (.uninitialized c pc) → t.step.2.machine.state = .halted ∧
      ∀ a b target, t.machine.fetch t.machine.pc = .subleq a b target →
        ¬t.machine.memory.Asks a → t.step.2.step.1 = t.step.1) ∧
    (∀ c pc, t.step.1 = .faulted (.relayed c pc) → t.step.2.machine.state = .halted) ∧
    (∀ cause, t.step.1 = .faulted (.input cause) → t.step.2.machine.state = .running) ∧
    (t.step.1 = .faulted .unwritable →
      (t.CanEnter → t.step.2.machine.state = .halted) ∧
      (¬t.CanEnter → t.step.2.machine.state = .running)) ∧
    (∀ c pc, t.step.1 = .faulted (.uninitialized c pc) ↔
      t.CanEnter ∧ pc = t.machine.pc ∧ Text.IsWritable pc ∧
        t.machine.FailsReading (.uninitialized c)) ∧
    (∀ c pc, t.step.1 = .faulted (.relayed c pc) ↔
      t.CanEnter ∧ pc = t.machine.pc ∧ Text.IsWritable c ∧ Text.IsWritable pc ∧
        t.machine.FailsReading (.input (.uninitialized c))) ∧
    (∀ cause, t.step.1 = .faulted (.input cause) ↔
      t.CanEnter ∧ t.machine.FailsReading (.input cause) ∧ ∀ c, cause ≠ .uninitialized c) ∧
    (t.step.1 = .faulted .unwritable ↔ ¬t.CanEnter ∨ ∃ c,
      (t.machine.FailsReading (.uninitialized c) ∨
        t.machine.FailsReading (.input (.uninitialized c))) ∧
      ¬(Text.IsWritable c ∧ Text.IsWritable t.machine.pc)) := by
  refine ⟨fun _ => kept_of_faulted, ?uninitialized, ?relayed, ?input, ?unwritable,
    fun _ _ => uninitialized_iff, fun _ _ => relayed_iff, fun _ => input_iff, unwritable_iff⟩
  case uninitialized =>
    intro c pc h
    rcases uninitialized_iff.mp h with ⟨henter, -, -, hfails⟩
    exact ⟨state_of_failsReading henter hfails, fun a b target hcell hasks => step_again h hcell hasks⟩
  case relayed =>
    intro c pc h
    rcases relayed_iff.mp h with ⟨henter, -, -, -, hfails⟩
    exact state_of_failsReading henter hfails
  case input =>
    intro cause h
    rcases input_iff.mp h with ⟨henter, hfails, hother⟩
    rw [state_of_failsReading henter hfails]
    cases cause with
    | uninitialized c => exact absurd rfl (hother c)
    | _ => rfl
  case unwritable =>
    intro h
    constructor
    · intro henter
      rcases unwritable_iff.mp h with hnot | ⟨c, hfails | hfails, -⟩
      · exact absurd henter hnot
      · exact state_of_failsReading henter hfails
      · exact state_of_failsReading henter hfails
    · intro henter
      rw [step_of_not_canEnter henter]

/-- A program that adds up a cell and a number from the port and then subtracts something else, when it
comes to do so, with its trace. -/
def adding (last : Cell) : Tracer where
  machine := (Machine.ofProgram
    (AddressMap.ofEntries [(0, .load 5 10 1), (1, .subleq 255 266 2), (2, last)])
    (Input.ofScript [.ok 5, .error (.uninitialized 7)]) "out").after 2
  tracing := true

theorem step_atomic_adding :
    (adding (.subleq 10 300 7)).step.1 = .faulted (.uninitialized 44 2) ∧
      (adding (.subleq 10 300 7)).step.2.machine.state = .halted ∧
      (adding (.subleq 10 300 7)).step.2.machine.pc = 2 ∧
      (adding (.subleq 10 300 7)).step.2.step.1 = .faulted (.uninitialized 44 2) ∧
      (adding (.subleq 10 255 7)).step.1 = .faulted (.relayed 7 2) ∧
      (adding (.subleq 10 255 7)).step.2.machine.state = .halted ∧
      (adding (.subleq 10 255 7)).step.2.machine.steps = 2 := by
  have hlack : (adding (.subleq 10 300 7)).step.1 = .faulted (.uninitialized 44 2) := by
    decide +kernel
  have hrelayed : (adding (.subleq 10 255 7)).step.1 = .faulted (.relayed 7 2) := by
    decide +kernel
  have hpc : (adding (.subleq 10 300 7)).machine.pc = 2 := by decide +kernel
  have hsteps : (adding (.subleq 10 255 7)).machine.steps = 2 := by decide +kernel
  have hcell : (adding (.subleq 10 300 7)).machine.fetch 2 = .subleq 10 300 7 := by decide +kernel
  have hasks : ¬(adding (.subleq 10 300 7)).machine.memory.Asks 10 := by
    rintro ⟨-, hport⟩
    revert hport
    decide +kernel
  rcases step_atomic (adding (.subleq 10 300 7)) with ⟨hkept, hmissing, -⟩
  rcases step_atomic (adding (.subleq 10 255 7)) with ⟨hkept', -, hhalted, -⟩
  rcases hmissing 44 2 hlack with ⟨hstate, hagain⟩
  rw [hpc] at hagain
  exact ⟨hlack, hstate, (hkept _ hlack).1.trans hpc, (hagain 10 300 7 hcell hasks).trans hlack,
    hrelayed, hhalted _ _ hrelayed, (hkept' _ hrelayed).2.1.trans hsteps⟩

/-- A subtraction at an address that is too long to be written. -/
def faraway : Tracer where
  machine := (Machine.ofProgram
    (AddressMap.ofEntries [(-Text.numberLimit, .subleq 1 2 3), (0, .load 5 10 (-Text.numberLimit))])
    (Input.ofScript []) "out").after 1

/-- It misses an operand, which is not reported. -/
theorem misses_unreported :
    ¬((∃ c pc, faraway.step.1 = .faulted (.uninitialized c pc)) ↔
      ∃ c, faraway.machine.FailsReading (.uninitialized c)) := by
  have hfault : faraway.step.1 = .faulted .unwritable := by decide +kernel
  have hpc : faraway.machine.pc < Machine.maxPc := by decide +kernel
  have hcell : faraway.machine.fetch faraway.machine.pc = .subleq 1 2 3 := by decide +kernel
  have hlacks : faraway.machine.memory.Lacks 1 := by
    refine ⟨?_, by decide +kernel⟩
    rintro ⟨-, hport⟩
    revert hport
    decide +kernel
  intro h
  rcases h.mpr ⟨1, hpc, 1, 2, 3, hcell, by decide, .inl ⟨hlacks, rfl⟩, hlacks.not_refuses⟩ with
    ⟨c, pc, hreported⟩
  rw [hfault] at hreported
  cases hreported

end Tracer

end Subleq
