import Mathlib
import Subleq.Proofs.Meaning
import Subleq.Proofs.Steps

/-!
# Subleq.Proofs.SignedBytes — data are signed bytes

The machine works on unbounded integers and folds a difference once, by 255. That one fold is enough
is not a fact of arithmetic alone: it needs operands that are signed bytes already.

* `Memory.HoldsBytes` says so of everything that can be read, be it stored or yet to come through
  the port, and of everything that was handed out since some moment in the past.
* Reading and writing keep it, therefore every step does (`bytes_step`), whatever the cells, the
  addresses and the branch targets of the program are.
-/

namespace Subleq

/-! ## Signed bytes -/

/-- The number is a signed byte. -/
def Byte.IsSigned (v : Int) : Prop := -128 ≤ v ∧ v ≤ 127

instance (v : Int) : Decidable (Byte.IsSigned v) :=
  inferInstanceAs (Decidable (-128 ≤ v ∧ v ≤ 127))

namespace Byte

variable {x y : Int}

theorem IsSigned.fold (hx : IsSigned x) (hy : IsSigned y) : IsSigned (fold (y - x)) :=
  fold_mem hx.1 hx.2 hy.1 hy.2

/-- Folding stays in the residue class modulo 255. -/
theorem fold_modEq (v : Int) : Byte.fold v ≡ v [ZMOD 255] := by
  rw [Int.modEq_iff_dvd]
  have hcases := fold_cases v
  omega

end Byte

/-- Every number that the input replies with is a signed byte. -/
def Input.YieldsBytes (i : Input) : Prop :=
  ∀ (n : Nat) (v : Int), (i.replies n).answer = .ok v → Byte.IsSigned v

theorem Input.yieldsBytes_ofScript {answers : List (Except InputFault Int)}
    (h : ∀ v, .ok v ∈ answers → Byte.IsSigned v) : (ofScript answers).YieldsBytes := by
  intro n v hv
  rw [ofScript, ofList_replies, List.getElem?_map] at hv
  cases hn : answers[n]? with
  | none => simp [hn] at hv
  | some answer =>
    simp only [hn, Option.map_some, Option.getD_some] at hv
    exact h v (hv ▸ List.mem_of_getElem? hn)

/-- If the cell is a load, what it loads is a signed byte. -/
def Cell.LoadsByte : Cell → Prop
  | load v _ _ => Byte.IsSigned v
  | subleq .. => True

instance (c : Cell) : Decidable c.LoadsByte :=
  match c with
  | .load v _ _ => inferInstanceAs (Decidable (Byte.IsSigned v))
  | .subleq .. => inferInstanceAs (Decidable True)

/-- Every value that the program loads is a signed byte. -/
def Program.LoadsBytes (p : Program) : Prop :=
  ∀ (a : Int) (c : Cell), p[a]? = some c → c.LoadsByte

theorem Program.loadsBytes_iff {p : Program} :
    p.LoadsBytes ↔ ∀ e ∈ p.toList, e.2.LoadsByte := by
  constructor
  · intro h e he
    exact h e.1 e.2 (Std.ExtTreeMap.mem_toList_iff_getElem?_eq_some.mp he)
  · intro h a c hc
    exact h (a, c) (Std.ExtTreeMap.mem_toList_iff_getElem?_eq_some.mpr hc)

instance (p : Program) : Decidable p.LoadsBytes := decidable_of_iff _ Program.loadsBytes_iff.symm

theorem Program.LoadsBytes.fetch {p : Program} (h : p.LoadsBytes) (a : Int) :
    (p.fetch a).LoadsByte := by
  unfold Program.fetch
  cases ha : p[a]? with
  | none => trivial
  | some c => exact h a c ha

/-! ## Reading and writing -/

namespace Memory

variable {past : List Event} {m : Memory}

/-- All that can be read is a signed byte, and so is all that was handed to the output since the
events of the past. -/
structure HoldsBytes (past : List Event) (m : Memory) : Prop where
  cells : ∀ (a v : Int), m.cells[a]? = some v → Byte.IsSigned v
  input : ∀ i, m.input = some i → i.YieldsBytes
  outputs : ∃ new, m.events = new ++ past ∧ ∀ name v, Event.output name v ∈ new → Byte.IsSigned v

theorem HoldsBytes.ask (h : m.HoldsBytes past) {i : Input} (hi : m.input = some i) :
    (m.ask i).2.HoldsBytes past := by
  rcases h.outputs with ⟨new, hnew, hbytes⟩
  constructor
  case cells => exact h.cells
  case input =>
    intro j hj
    cases hj
    exact h.input i hi
  case outputs =>
    refine ⟨.asked i.next :: new, by simp [Memory.ask, hnew], ?_⟩
    intro name v hmem
    simp only [List.mem_cons, reduceCtorEq, false_or] at hmem
    exact hbytes name v hmem

/-- What is read is a signed byte, and reading leaves nothing else to be read. -/
theorem HoldsBytes.read (h : m.HoldsBytes past) (a : Int) :
    (m.read a).2.HoldsBytes past ∧ ∀ v, (m.read a).1 = .ok v → Byte.IsSigned v := by
  have hcell : ∀ c, (m.readCell c).2.HoldsBytes past ∧
      ∀ v, (m.readCell c).1 = .ok v → Byte.IsSigned v := by
    intro c
    unfold readCell
    split
    · next w hw =>
      refine ⟨h, ?_⟩
      rintro v ⟨rfl⟩
      exact h.cells c w hw
    · exact ⟨h, nofun⟩
  unfold Memory.read
  split
  · next i hi =>
    split
    · -- the port: what the input replies with, if it is a number
      refine ⟨h.ask hi, ?_⟩
      intro v hv
      apply h.input i hi i.taken v
      cases hanswer : i.next.answer with
      | error cause => simp [Memory.ask, hanswer, Except.mapError] at hv
      | ok w =>
        have hw : v = w := by simpa [Memory.ask, hanswer, Except.mapError, eq_comm] using hv
        rw [hw]
        exact hanswer
    · exact hcell _
  · exact hcell _

/-- What is written from now on is handed out or stored. -/
theorem HoldsBytes.write (h : m.HoldsBytes past) (a : Int) {v : Int} (hv : Byte.IsSigned v) :
    (m.write a v).HoldsBytes past := by
  rcases h.outputs with ⟨new, hnew, hbytes⟩
  have hcell : ∀ c, (m.writeCell c v).HoldsBytes past := by
    intro c
    constructor
    case cells =>
      intro k w hw
      simp only [writeCell, AddressMap.get?_insert] at hw
      split at hw
      · cases hw
        exact hv
      · exact h.cells k w hw
    case input => exact h.input
    case outputs =>
      -- watchers see the value, but it is not handed to the output
      refine ⟨m.sightings c v ++ new, by simp [writeCell, hnew], ?_⟩
      intro name w hmem
      rcases List.mem_append.mp hmem with hmem | hmem
      · rcases List.mem_map.mp hmem with ⟨_, _, hevent⟩
        cases hevent
      · exact hbytes name w hmem
  unfold Memory.write
  split
  · next output _ =>
    split
    · constructor
      case cells => exact h.cells
      case input => exact h.input
      case outputs =>
        refine ⟨.output output v :: new, by simp [hnew], ?_⟩
        intro name w hmem
        rcases List.mem_cons.mp hmem with hevent | hmem
        · cases hevent
          exact hv
        · exact hbytes name w hmem
    · exact hcell _
  · exact hcell _

end Memory

/-! ## Steps -/

namespace Machine

variable {past : List Event} {m : Machine}

/-- A subtraction is executed: its operands are read, first the subtrahend and then the minuend, the
result is written over the minuend, and the branch is taken unless the result is positive. -/
structure Subtracts (m : Machine) (a b target x y result : Int) (m₁ m₂ : Memory) : Prop where
  subtrahend : m.memory.read a = (.ok x, m₁)
  minuend : m₁.read b = (.ok y, m₂)
  written : m.step.2.memory = m₂.write b result
  branch : m.step.2.pc = if result ≤ 0 then target else m.pc + 1

theorem executeSubleq_of_reads (target : Int) {a b x y : Int} {m₁ m₂ : Memory}
    (ha : m.memory.read a = (.ok x, m₁)) (hb : m₁.read b = (.ok y, m₂)) :
    m.executeSubleq a b target = (.ok (), { m with
      memory := m₂.write b (Byte.fold (y - x))
      pc := if Byte.fold (y - x) ≤ 0 then target else m.pc + 1 }) := by
  simp only [executeSubleq, ha, hb]

/-- A subtraction whose operands can be read is executed. -/
theorem subtracts_of_reads {a b target x y : Int} {m₁ m₂ : Memory} (hpc : m.pc < maxPc)
    (hcell : m.fetch m.pc = .subleq a b target) (hne : Cell.subleq a b target ≠ .empty)
    (ha : m.memory.read a = (.ok x, m₁)) (hb : m₁.read b = (.ok y, m₂)) :
    m.Subtracts a b target x y (Byte.fold (y - x)) m₁ m₂ ∧ m.step.1 = goesOn m.step.2.pc := by
  have hstep := step_of_subleq hpc hcell hne
  have hexec := executeSubleq_of_reads (m := m.start) target ((start_memory m).symm ▸ ha) hb
  rw [hexec, start_pc] at hstep
  rw [hstep]
  refine ⟨⟨ha, hb, ?_, ?_⟩, settle_fst _⟩
  · rw [hstep]
    exact settle_memory _
  · rw [hstep]
    exact settle_pc _

/-- An instruction that cannot be executed ends the step with a fault. -/
theorem conclude_error (pc : Int) (cause : ReadFault) (m : Machine) :
    ∃ fault, (conclude pc (.error cause, m)).1 = .faulted fault ∧
      (conclude pc (.error cause, m)).2.memory = m.memory :=
  ⟨_, rfl, rfl⟩

/-- A subtraction reads both operands and is executed, or it faults after as many reads as succeeded
and one that did not. -/
theorem subtracts_or_faults {a b target : Int} (hpc : m.pc < maxPc)
    (hcell : m.fetch m.pc = .subleq a b target) (hne : Cell.subleq a b target ≠ .empty) :
    (∃ x y m₁ m₂, m.Subtracts a b target x y (Byte.fold (y - x)) m₁ m₂) ∨
    ∃ cause, m.step.1 = .faulted cause ∧
      (m.step.2.memory = (m.memory.read a).2 ∨
        m.step.2.memory = ((m.memory.read a).2.read b).2) := by
  have hstep := step_of_subleq hpc hcell hne
  have hmemory : m.start.memory = m.memory := start_memory m
  generalize m.start = m₀ at hstep hmemory
  cases ha : m.memory.read a with
  | mk r m₁ =>
    cases r with
    | error cause =>
      -- the subtrahend cannot be read
      right
      have hexec : m₀.executeSubleq a b target = (.error cause, { m₀ with memory := m₁ }) := by
        simp only [executeSubleq, hmemory, ha]
      rw [hexec] at hstep
      rcases conclude_error m.pc cause { m₀ with memory := m₁ } with ⟨fault, hfault, hkept⟩
      rw [hstep]
      exact ⟨fault, hfault, Or.inl hkept⟩
    | ok x =>
      cases hb : m₁.read b with
      | mk r m₂ =>
        cases r with
        | error cause =>
          -- the minuend cannot be read
          right
          have hexec : m₀.executeSubleq a b target = (.error cause, { m₀ with memory := m₂ }) := by
            simp only [executeSubleq, hmemory, ha, hb]
          rw [hexec] at hstep
          rcases conclude_error m.pc cause { m₀ with memory := m₂ } with ⟨fault, hfault, hkept⟩
          rw [hstep]
          exact ⟨fault, hfault, Or.inr hkept⟩
        | ok y =>
          exact .inl ⟨x, y, m₁, m₂, (subtracts_of_reads hpc hcell hne ha hb).1⟩

/-- Every step keeps all data signed bytes. -/
theorem bytes_step (hp : m.program.LoadsBytes) (h : m.memory.HoldsBytes past) :
    m.step.2.memory.HoldsBytes past := by
  rcases Int.lt_or_le m.pc maxPc with hpc | hpc
  swap
  · rw [step_of_halted hpc]
    exact h
  cases hcell : m.fetch m.pc with
  | load v d next =>
    have hv := hp.fetch m.pc
    rw [show m.program.fetch m.pc = .load v d next from hcell] at hv
    rw [(step_load hpc hcell).2.2]
    exact h.write d hv
  | subleq a b target =>
    by_cases hne : Cell.subleq a b target = .empty
    · rw [hne] at hcell
      rw [step_of_empty hpc hcell, settle_memory]
      exact h
    · rcases subtracts_or_faults hpc hcell hne with ⟨x, y, m₁, m₂, hsub⟩ |
        ⟨cause, -, hmemory | hmemory⟩
      · -- both operands are signed bytes, and so is their difference once it is folded
        have hread := h.read a
        rw [hsub.subtrahend] at hread
        have hread' := hread.1.read b
        rw [hsub.minuend] at hread'
        have hx := hread.2 x rfl
        have hy := hread'.2 y rfl
        rw [hsub.written]
        exact hread'.1.write b (hx.fold hy)
      · rw [hmemory]
        exact (h.read a).1
      · rw [hmemory]
        exact ((h.read a).1.read b).1

/-- If the machine is about to execute a subtraction, the result will be a signed byte and congruent
modulo 255 to the difference of what is read; it will be this very difference where that is a signed
byte. -/
def SubtractsBytes (m : Machine) : Prop :=
  ∀ a b target, m.pc < maxPc → m.fetch m.pc = .subleq a b target →
    Cell.subleq a b target ≠ .empty → (∀ cause, m.step.1 ≠ .faulted cause) →
    ∃ x y result m₁ m₂, m.Subtracts a b target x y result m₁ m₂ ∧ Byte.IsSigned result ∧
      result ≡ y - x [ZMOD 255] ∧ (Byte.IsSigned (y - x) → result = y - x)

theorem subtractsBytes (h : m.memory.HoldsBytes past) : m.SubtractsBytes := by
  intro a b target hpc hcell hne hexecuted
  rcases subtracts_or_faults hpc hcell hne with ⟨x, y, m₁, m₂, hsub⟩ | ⟨cause, hfault, -⟩
  · have hread := h.read a
    rw [hsub.subtrahend] at hread
    have hread' := hread.1.read b
    rw [hsub.minuend] at hread'
    have hresult := (hread.2 x rfl).fold (hread'.2 y rfl)
    refine ⟨x, y, _, m₁, m₂, hsub, hresult, Byte.fold_modEq _, ?_⟩
    intro hdifference
    exact Byte.fold_of_mem hdifference.1 hdifference.2
  · exact absurd hfault (hexecuted cause)

/-- Nothing is stored when a run begins, and nothing has been handed out. -/
theorem bytes_reset (hinput : ∀ i, m.memory.input = some i → i.YieldsBytes) :
    m.reset.memory.HoldsBytes m.memory.events := by
  constructor
  case cells =>
    intro a v hv
    have hnone : m.reset.memory.cells[a]? = none := Std.ExtTreeMap.getElem?_empty
    rw [hnone] at hv
    cases hv
  case input => exact hinput
  case outputs => exact ⟨[], rfl, nofun⟩

/-- In a machine whose program loads signed bytes and whose input yields them, everything that is
stored and everything that was handed to the output since the start is a signed byte after any
number of steps, and so is the result of a subtraction that is then executed; this is arithmetic
modulo 255. -/
theorem signed_bytes_after {m : Machine} (hprogram : m.program.LoadsBytes)
    (hinput : ∀ i, m.memory.input = some i → i.YieldsBytes) (n : Nat) :
    (∀ (a v : Int), (m.reset.after n).memory.cells[a]? = some v → Byte.IsSigned v) ∧
    (∃ new, (m.reset.after n).memory.events = new ++ m.memory.events ∧
      ∀ name v, Event.output name v ∈ new → Byte.IsSigned v) ∧
    (m.reset.after n).SubtractsBytes := by
  -- the program stays the same, and the invariant is carried along from step to step
  have hafter : (m.reset.after n).program.LoadsBytes ∧
      (m.reset.after n).memory.HoldsBytes m.memory.events := by
    refine after_induction (I := fun m' => m'.program.LoadsBytes ∧
      m'.memory.HoldsBytes m.memory.events) (m := m.reset) ⟨hprogram, bytes_reset hinput⟩ ?_ n
    intro m' h
    refine ⟨?_, bytes_step h.1 h.2⟩
    rw [program_step]
    exact h.1
  exact ⟨hafter.2.cells, hafter.2.outputs, subtractsBytes hafter.2⟩

/-- A program that takes the least signed byte from what comes through the port, at an address that
names the port only modulo 256. -/
def leastFromPort : Machine :=
  ofProgram (AddressMap.ofEntries [(0, .load (-128) 10 1), (1, .subleq 10 (-1) 7)])
    (Input.ofScript [.ok 127]) "out"

theorem signed_bytes_after_leastFromPort :
    leastFromPort.program.LoadsBytes ∧
    (∀ i, leastFromPort.memory.input = some i → i.YieldsBytes) ∧
    ∃ x y result m₁ m₂, (leastFromPort.reset.after 1).Subtracts 10 (-1) 7 x y result m₁ m₂ ∧
      Byte.IsSigned result ∧ result ≡ y - x [ZMOD 255] := by
  have hprogram : leastFromPort.program.LoadsBytes := by decide +kernel
  have hinput : ∀ i, leastFromPort.memory.input = some i → i.YieldsBytes := by
    rintro i ⟨rfl⟩
    exact Input.yieldsBytes_ofScript (by simp [Byte.IsSigned])
  have hpc : (leastFromPort.reset.after 1).pc = 1 := by decide +kernel
  have hcell : (leastFromPort.reset.after 1).fetch 1 = .subleq 10 (-1) 7 := by decide +kernel
  have hrunning : (leastFromPort.reset.after 1).step.1 = .running := by decide +kernel
  rcases (signed_bytes_after hprogram hinput 1).2.2 10 (-1) 7 (by rw [hpc]; decide)
    (by rw [hpc]; exact hcell) (by decide) (by simp [hrunning]) with
    ⟨x, y, result, m₁, m₂, hsub, hresult, hmod, -⟩
  exact ⟨hprogram, hinput, x, y, result, m₁, m₂, hsub, hresult, hmod⟩

end Machine

end Subleq
