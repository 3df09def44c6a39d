import Mathlib
import Subleq.Proofs.Alike
import Subleq.Proofs.Convention
import Subleq.Proofs.Preload
import Subleq.Proofs.Recall

/-!
# Subleq.Proofs.DataSegment — what the loads at the beginning of a program leave

The preload and a run go through the loads at the beginning of a program side by side: they look at
the same cells, and store the same values in the same order (`Alongside`). The preload of a program
is therefore a run of as many steps (`RunsAlike`), in which the input is not asked.

In a compiled program these loads are the preamble and the definitions up to the first operation.
What they leave is said by the lines of the source: a variable has the value of the last of these
definitions that names it (`Session.LastDefines`), the reserved cells have theirs, and nothing else
is stored (`preload_agrees`).
-/

namespace Subleq

open Layout

namespace Memory

/-- A write asks nothing: it adds what is handed out or what watchers see. -/
theorem history_write (m : Memory) (a v : Int) :
    ∃ new, (m.write a v).history = m.history ++ new ∧ ∀ e ∈ new, ∀ reply, e ≠ .asked reply := by
  rcases m.write_cases a v with ⟨name, -, -, hwrite⟩ | ⟨-, hwrite⟩
  · refine ⟨[.output name v], by simp [hwrite, history], ?_⟩
    intro e he reply hasked
    rw [List.mem_singleton.mp he] at hasked
    cases hasked
  · refine ⟨(m.sightings (cellOf a) v).reverse, by simp [hwrite, writeCell, history], ?_⟩
    intro e he reply hasked
    simp only [sightings, List.mem_reverse, List.mem_map] at he
    obtain ⟨w, -, rfl⟩ := he
    cases hasked

/-- What is not written to the port is stored. -/
theorem cells_write (m : Memory) {a : Int} (h : cellOf a ≠ m.portAddress) (v k : Int) :
    (m.write a v).cells[k]? = if cellOf a = k then some v else m.cells[k]? := by
  rcases m.write_cases a v with ⟨_, -, hport, -⟩ | ⟨-, hwrite⟩
  · exact absurd hport h
  · rw [hwrite, writeCell, AddressMap.get?_insert]

/-- The store after a row of writes, each of a value to an address. -/
def writes (m : Memory) (loads : List (Int × Int)) : Memory :=
  loads.foldl (fun memory (v, d) => memory.write d v) m

theorem writes_append (m : Memory) (loads loads' : List (Int × Int)) :
    m.writes (loads ++ loads') = (m.writes loads).writes loads' := List.foldl_append

/-- Writing leaves the port where it is. -/
theorem portAddress_writes (m : Memory) (loads : List (Int × Int)) :
    (m.writes loads).portAddress = m.portAddress := by
  induction loads generalizing m with
  | nil => rfl
  | cons load loads ih => exact (ih _).trans (m.write_attached load.2 load.1).1

end Memory

/-! ## Loads in a preload and in a run -/

namespace Machine

variable {m m' m₁ : Machine} {n : Nat} {v d next : Int}

/-- The two machines are at the same place of the same program, and the same is stored. -/
structure Alongside (m₁ m : Machine) : Prop where
  program : m₁.program = m.program
  memory : m₁.memory = m.memory
  pc : m₁.pc = m.pc

/-- There is nothing to pass by at a load. -/
theorem skipEmpty_of_load (hpc : m.pc < maxPc) (hcell : m.fetch m.pc = .load v d next) :
    m.skipEmpty = m := by
  obtain ⟨room, hroom⟩ : ∃ room, (maxPc - m.pc).toNat = room + 1 :=
    ⟨(maxPc - m.pc).toNat - 1, by omega⟩
  have hfull : (m.program.fetch m.pc).isEmpty = false := by
    rw [← fetch, hcell]
    rfl
  unfold skipEmpty
  rw [hroom, Program.skipEmpty, hfull]
  rfl

/-- A step of a run at a load does what the preload does. -/
theorem Alongside.step (h : m₁.Alongside m) (hpc : m.pc < maxPc)
    (hcell : m.fetch m.pc = .load v d next) : m₁.skipEmpty.step.1 = goesOn next ∧
      m₁.skipEmpty.step.2.Alongside (m.executeLoad v d next) ∧
      m₁.skipEmpty.step.2.steps = m₁.steps + 1 := by
  have hpc₁ : m₁.pc < maxPc := by
    rw [h.pc]
    exact hpc
  have hcell₁ : m₁.fetch m₁.pc = .load v d next := by
    rw [fetch, h.program, h.pc]
    exact hcell
  rw [skipEmpty_of_load hpc₁ hcell₁]
  obtain ⟨hend, hpc', hmemory⟩ := step_load hpc₁ hcell₁
  refine ⟨hend, ⟨?_, ?_, hpc'⟩, ?_⟩
  · rw [program_step]
    exact h.program
  · rw [hmemory, h.memory]
    rfl
  · have hne : m₁.fetch m₁.pc ≠ .empty := by
      rw [hcell₁]
      simp [Cell.empty]
    rcases steps_execute hpc₁ hne with ⟨-, hsteps⟩ | ⟨cause, hfault, -⟩
    · exact hsteps
    · rw [hend] at hfault
      exact absurd hfault (goesOn_ne_faulted next cause)

/-- A run with a limit goes through the loads of a preload. It ends with the last of them, for one
of two reasons. -/
theorem Preloads.runFor (h : Preloads n m m') (hpc : m.pc < maxPc) (hm₁ : m₁.Alongside m) :
    (runFor n m₁).1 = .ok (if maxPc ≤ m'.pc then .halt else .stepLimit) ∧
      (runFor n m₁).2.Alongside m' ∧ (runFor n m₁).2.steps = m₁.steps + n := by
  -- a run counts its steps and the preload does not, so the machine of the run is another one
  induction h generalizing m₁ with
  | halted hout => omega
  | @stopped m hin _ =>
    rw [if_neg (Int.not_le.mpr hin)]
    exact ⟨rfl, hm₁, rfl⟩
  | @load n m m' v d next _ hcell rest ih =>
    obtain ⟨hend, hm₂, hsteps⟩ := hm₁.step hpc hcell
    rw [Machine.runFor_succ]
    generalize m₁.skipEmpty.step = result at hend hm₂ hsteps
    obtain ⟨outcome, m₂⟩ := result
    rcases Int.lt_or_le next maxPc with hin | hout
    · obtain rfl : outcome = .running := hend.trans (if_neg (Int.not_le.mpr hin))
      obtain ⟨hreason, halong, hcount⟩ := ih hin hm₂
      have hfirst : m₂.steps = m₁.steps + 1 := hsteps
      refine ⟨hreason, halong, ?_⟩
      calc (Machine.runFor n m₂).2.steps = m₂.steps + n := hcount
        _ = m₁.steps + (n + 1) := by omega
    · -- the load leads out of the program store, where the preload ends as well
      obtain rfl : outcome = .halted := hend.trans (if_pos hout)
      cases rest with
      | halted _ => exact ⟨congrArg Except.ok (if_pos hout).symm, hm₂, hsteps⟩
      | stopped hin _ => exact absurd hin (Int.not_lt.mpr hout)
      | load hin _ _ => exact absurd hin (Int.not_lt.mpr hout)

/-- The input is not asked while loads are executed. -/
theorem Preloads.not_asked (h : Preloads n m m') : m'.memory.input = m.memory.input ∧
    ∃ new, m'.memory.history = m.memory.history ++ new ∧ ∀ e ∈ new, ∀ reply, e ≠ .asked reply := by
  induction h with
  | halted _ => exact ⟨rfl, [], by simp, nofun⟩
  | stopped _ _ => exact ⟨rfl, [], by simp, nofun⟩
  | @load n m m' v d next _ _ _ ih =>
    obtain ⟨hinput, new, hnew, hothers⟩ := ih
    obtain ⟨written, hwritten, hwrite⟩ := m.memory.history_write d v
    refine ⟨hinput.trans (m.memory.write_attached d v).2.1, written ++ new, ?_, ?_⟩
    · rw [hnew, ← List.append_assoc, ← hwritten]
      rfl
    · intro e he
      rcases List.mem_append.mp he with he | he
      · exact hwrite e he
      · exact hothers e he

/-- A run of so many steps ends where the second machine is, with the same stored, handed out and
seen on the way, and the input is not asked. -/
structure RunsAlike (m : Machine) (n : Nat) (m' : Machine) : Prop where
  outcome : (m.run n).1 = .ok (if maxPc ≤ m'.pc then .halt else .stepLimit)
  memory : (m.run n).2.memory = m'.memory
  pc : (m.run n).2.pc = m'.pc
  steps : (m.run n).2.steps = n
  input : m'.memory.input = m.memory.input
  history : ∃ new, m'.memory.history = m.memory.history ++ new ∧
    ∀ e ∈ new, ∀ reply, e ≠ .asked reply

theorem runsAlike_of_preload (hn : 1 ≤ n) (h : m.preload = some (n, m')) : m.RunsAlike n m' := by
  have hpreloads : Preloads n m.reset m' := preload_eq_some_iff.mp h
  have hstart : m.reset.pc < maxPc := by
    change (0 : Int) < 256
    decide
  have hrun : m.run n = Machine.runFor n m.reset := by
    unfold run
    rw [if_pos (by omega), Int.toNat_natCast]
  have hsame : m.reset.Alongside m.reset := ⟨rfl, rfl, rfl⟩
  obtain ⟨hend, halong, hsteps⟩ := hpreloads.runFor hstart hsame
  obtain ⟨hinput, hhistory⟩ := hpreloads.not_asked
  constructor
  case outcome => rw [hrun, hend]
  case memory => rw [hrun, halong.memory]
  case pc => rw [hrun, halong.pc]
  case steps =>
    rw [hrun, hsteps]
    exact Nat.zero_add n
  case input => exact hinput
  case history => exact hhistory

end Machine

/-! ## Rows of loads -/

/-- The loads stand one after the other from the address on, and each leads on to the next. -/
def Program.HasLoads (p : Program) (a : Int) (loads : List (Int × Int)) : Prop :=
  ∀ (i : Nat) v d, loads[i]? = some (v, d) → p.fetch (a + i) = .load v d (a + i + 1)

namespace Program

variable {p : Program} {a : Int} {load : Int × Int} {loads : List (Int × Int)}

theorem HasLoads.head (h : p.HasLoads a (load :: loads)) :
    p.fetch a = .load load.1 load.2 (a + 1) := by
  have hfirst := h 0 load.1 load.2 rfl
  rwa [Nat.cast_zero, Int.add_zero] at hfirst

theorem HasLoads.tail (h : p.HasLoads a (load :: loads)) : p.HasLoads (a + 1) loads := by
  intro i v d hi
  have hnext := h (i + 1) v d (by simpa using hi)
  have hadd : a + ((i + 1 : Nat) : Int) = a + 1 + i := by
    push_cast
    omega
  rwa [hadd] at hnext

end Program

namespace Machine

/-- Loads in a row with no other load after them are executed one by one. -/
theorem preloads_loads (loads : List (Int × Int)) {m : Machine}
    (hloads : m.program.HasLoads m.pc loads) (hroom : m.pc + loads.length ≤ maxPc)
    (hstop : m.program.successor? (m.pc + loads.length) = none) :
    ∃ m', Preloads loads.length m m' ∧ m'.memory = m.memory.writes loads := by
  induction loads generalizing m with
  | nil =>
    rw [List.length_nil, Nat.cast_zero, Int.add_zero] at hstop
    exact ⟨m, preloads_of_none hstop, rfl⟩
  | cons load loads ih =>
    have hlength : m.pc + ((load :: loads).length : Int) = m.pc + 1 + loads.length := by
      rw [List.length_cons]
      push_cast
      omega
    rw [hlength] at hroom hstop
    -- the rest is a row of loads for the machine that has executed the first one
    obtain ⟨m', hpreloads, hmemory⟩ :=
      ih (m := m.executeLoad load.1 load.2 (m.pc + 1)) hloads.tail hroom hstop
    exact ⟨m', .load (by omega) hloads.head hpreloads, hmemory⟩

end Machine

/-! ## Rows of placements -/

/-- The loads that code consists of, as far as it is no operation: values, and where they go. -/
def Code.loads : Code → List (Int × Int)
  | .preamble => Machine.preambleLoads
  | .define value a => [(value, a)]
  | .operation _ => []

namespace Code

variable {c : Code}

theorem length_loads (h : c.isOperation = false) : c.loads.length = c.size := by
  cases c with
  | preamble => rfl
  | define value a => rfl
  | operation op => cases h

theorem getElem?_cells_of_loads (o : Int) {i : Nat} {v d : Int} (hi : c.loads[i]? = some (v, d)) :
    (c.cells o)[i]? = some (.load v d (o + i + 1)) := by
  have hlt := (List.getElem?_eq_some_iff.mp hi).1
  cases c with
  | preamble =>
    rw [cells_preamble]
    simp only [loads, Machine.preambleLoads, List.length_cons, List.length_nil] at hlt
    interval_cases i <;> cases hi <;> simp [Int.add_assoc]
  | define value a =>
    rw [cells_define]
    simp only [loads, List.length_cons, List.length_nil] at hlt
    interval_cases i
    cases hi
    simp
  | operation op => cases hlt

end Code

namespace Tiles

/-- The loads of a row of placements stand one after the other. -/
theorem loads {a b : Int} {ps : List Placement} (h : Tiles a ps b)
    (hps : ∀ p ∈ ps, p.code.isOperation = false) :
    b = a + (ps.flatMap (·.code.loads)).length ∧
      ∀ (i : Nat) v d, (ps.flatMap (·.code.loads))[i]? = some (v, d) →
        ∃ p ∈ ps, ∃ j : Nat, a + i = p.start + j ∧
          (p.code.cells p.start)[j]? = some (.load v d (a + i + 1)) := by
  induction h with
  | nil a => simp
  | @cons p ps a b start rest ih =>
    obtain ⟨hend, hloads⟩ := ih fun q hq => hps q (List.mem_cons_of_mem p hq)
    have hlength := Code.length_loads (hps p List.mem_cons_self)
    rw [List.flatMap_cons]
    constructor
    · rw [List.length_append]
      push_cast
      omega
    · intro i v d hi
      rw [List.getElem?_append] at hi
      split at hi
      · refine ⟨p, List.mem_cons_self, i, by omega, ?_⟩
        rw [← start]
        exact Code.getElem?_cells_of_loads p.start hi
      · next hbeyond =>
        obtain ⟨q, hq, j, hj, hcell⟩ := hloads _ v d hi
        have haddress :
            p.start + p.code.size + ((i - p.code.loads.length : Nat) : Int) = a + i := by
          omega
        rw [haddress] at hj hcell
        exact ⟨q, List.mem_cons_of_mem p hq, j, hj, hcell⟩

end Tiles

/-! ## Leading definitions -/

/-- The token that the line gives as the value of the name, if it is a definition of it. -/
def Placement.token? (name : String) (p : Placement) : Option String :=
  match p.clause? with
  | some (.define other token) => if other = name then some token else none
  | _ => none

/-- The value that is placed for a cell, if what is placed is a definition of it. -/
def Placement.valueAt? (a : Int) (p : Placement) : Option Int :=
  match p.code with
  | .define value d => if d = a then some value else none
  | _ => none

namespace Session

variable {s : Session} {ds : List Placement} {p : Placement} {name token : String}
  {pattern a v : Int}

/-- The definitions that are placed before the first operation. -/
def leadingDefinitions (s : Session) : List Placement :=
  s.listing.tail.takeWhile fun p => !p.code.isOperation

/-- The last of the lines that defines the name gives it this value. -/
def LastDefines (s : Session) (ds : List Placement) (name : String) (v : Int) : Prop :=
  ∃ token pattern since, LastGiven (Placement.token? name) ds token since ∧
    s.symbols.Yields token pattern ∧ v = Byte.decode pattern

/-- What is stored is what the constants, the scratch cells and the definitions before the first
operation come to. -/
def Leaves (s : Session) (cells : AddressMap Int) : Prop :=
  ∀ a v, cells[a]? = some v ↔ (a = negOne ∧ v = -1) ∨ (zero ≤ a ∧ a < negOne ∧ v = 0) ∨
    ∃ name, s.symbols.lookup? name = some a ∧ s.LastDefines s.leadingDefinitions name v

/-- What the line of a definition says, and what is placed for it. -/
structure Defining (s : Session) (p : Placement) (name token : String) (pattern a : Int) :
    Prop where
  clause : p.clause? = some (.define name token)
  named : nameError? name = none
  address : s.symbols.lookup? name = some a
  value : s.symbols.Yields token pattern
  code : p.code = .define (Byte.decode pattern) a

/-- Each of the placements is one of a definition. -/
def AllDefining (s : Session) (ds : List Placement) : Prop :=
  ∀ p ∈ ds, ∃ name token pattern a, s.Defining p name token pattern a

theorem Sound.allDefining (h : s.Sound) : s.AllDefining s.leadingDefinitions := by
  intro p hp
  obtain ⟨ps, hlisting, hps⟩ := h.realized
  have hmem : p ∈ ps := by
    have htail : p ∈ s.listing.tail := (List.takeWhile_sublist _).subset hp
    rwa [hlisting] at htail
  have hcode : p.code.isOperation = false := by
    simpa using List.mem_takeWhile_imp hp
  obtain ⟨clause, hclause, hreal⟩ := hps p hmem
  generalize hc : p.code = code at hreal hcode
  cases hreal with
  | define hname ha hvalue => exact ⟨_, _, _, _, hclause, hname, ha, hvalue, hc⟩
  | operation hop => cases hcode

/-- Names that can be defined are names of cells of their own. -/
theorem Sound.eq_of_lookup? (h : s.Sound) {other : String} (hname : nameError? name = none)
    (hother : nameError? other = none) (ha : s.symbols.lookup? name = some a)
    (ha' : s.symbols.lookup? other = some a) : name = other := by
  have hvariable : ∀ {x : String}, nameError? x = none → s.symbols.lookup? x = some a →
      ∃ v ∈ s.symbols.variables, v.name = x ∧ v.address = a := by
    intro x hx hlookup
    rcases SymbolTable.lookup?_cases hlookup with ⟨rfl, -⟩ | hv
    · simp [nameError?] at hx
    · exact hv
  obtain ⟨v, hv, rfl, hva⟩ := hvariable hname ha
  obtain ⟨w, hw, rfl, hwa⟩ := hvariable hother ha'
  rw [h.standard.eq_of_address hv hw (hva.trans hwa.symm)]

theorem Sound.address_mem (h : s.Sound) (hp : s.Defining p name token pattern a) :
    0 ≤ a ∧ a < zero := by
  rcases SymbolTable.lookup?_cases hp.address with ⟨rfl, -⟩ | ⟨v, hv, -, rfl⟩
  · have hnamed := hp.named
    simp [nameError?] at hnamed
  · have hmem := h.standard.variable_mem hv
    omega

theorem Defining.token?_eq (h : s.Defining p name token pattern a) (other : String) :
    p.token? other = if name = other then some token else none := by
  simp [Placement.token?, h.clause]

theorem Defining.valueAt?_eq (h : s.Defining p name token pattern a) (b : Int) :
    p.valueAt? b = if a = b then some (Byte.decode pattern) else none := by
  simp [Placement.valueAt?, h.code]

/-- The cell of a variable is written last by the definition that names the variable last. -/
theorem Sound.lastGiven_valueAt?_iff (h : s.Sound) (hds : s.AllDefining ds) :
    (∃ since, LastGiven (Placement.valueAt? a) ds v since) ↔
      ∃ name, s.symbols.lookup? name = some a ∧ s.LastDefines ds name v := by
  constructor
  · rintro ⟨since, before, p, rfl, hgive, hnone⟩
    obtain ⟨name, token, pattern, b, hp⟩ := hds p (by simp)
    rw [hp.valueAt?_eq] at hgive
    obtain ⟨rfl, hv⟩ := Option.ite_none_right_eq_some.mp hgive
    refine ⟨name, hp.address, token, pattern, since, ⟨before, p, rfl, ?_, ?_⟩, hp.value,
      (Option.some.inj hv).symm⟩
    · rw [hp.token?_eq, if_pos rfl]
    · intro q hq
      obtain ⟨other, token', pattern', b', hdef⟩ := hds q (by simp [hq])
      rw [hdef.token?_eq, if_neg]
      rintro rfl
      -- the name has one cell only
      have hsame : b' = b := Option.some.inj (hdef.address.symm.trans hp.address)
      have hlater := hnone q hq
      rw [hdef.valueAt?_eq, if_pos hsame] at hlater
      cases hlater
  · rintro ⟨name, ha, token, pattern, since, ⟨before, p, rfl, hgive, hnone⟩, hvalue, rfl⟩
    obtain ⟨other, token', pattern', b, hp⟩ := hds p (by simp)
    rw [hp.token?_eq] at hgive
    obtain ⟨rfl, htoken⟩ := Option.ite_none_right_eq_some.mp hgive
    obtain rfl : token' = token := Option.some.inj htoken
    have hb : b = a := Option.some.inj (hp.address.symm.trans ha)
    have hpattern : pattern' = pattern := Except.ok.inj (hp.value.symm.trans hvalue)
    refine ⟨since, before, p, rfl, ?_, ?_⟩
    · rw [hp.valueAt?_eq, if_pos hb, hpattern]
    · intro q hq
      obtain ⟨name', token'', pattern'', b', hdef⟩ := hds q (by simp [hq])
      have hlater := hnone q hq
      rw [hdef.token?_eq] at hlater
      rw [hdef.valueAt?_eq, if_neg]
      rintro rfl
      have hsame := h.eq_of_lookup? hdef.named hp.named hdef.address ha
      rw [if_pos hsame] at hlater
      cases hlater

/-- The cells that a row of definitions leaves: those that were written, and the others as they
were. -/
theorem Sound.cells_definitions (h : s.Sound) (hds : s.AllDefining ds) (m : Memory)
    (hport : m.portAddress = ioPort) :
    (m.writes (ds.flatMap (·.code.loads))).cells[a]? = some v ↔
      (∃ since, LastGiven (Placement.valueAt? a) ds v since) ∨
        ((∀ p ∈ ds, p.valueAt? a = none) ∧ m.cells[a]? = some v) := by
  induction ds using List.reverseRecOn generalizing v with
  | nil => simp [LastGiven, Memory.writes]
  | append_singleton ds p ih =>
    obtain ⟨name, token, pattern, b, hp⟩ := hds p (by simp)
    have hearlier : s.AllDefining ds := fun q hq => hds q (List.mem_append_left _ hq)
    have hb : 0 ≤ b ∧ b < 250 := h.address_mem hp
    have hcell : Memory.cellOf b = b := Memory.cellOf_eq (by omega) (by omega)
    have hloads : p.code.loads = [(Byte.decode pattern, b)] := by rw [hp.code, Code.loads]
    have hlast : m.writes ((ds ++ [p]).flatMap (·.code.loads)) =
        (m.writes (ds.flatMap (·.code.loads))).write b (Byte.decode pattern) := by
      rw [List.flatMap_append, List.flatMap_singleton, hloads, Memory.writes_append]
      rfl
    rw [hlast, Memory.cells_write, hcell]
    · -- either the last definition is one of the cell, or it changes nothing there
      simp only [lastGiven_concat, List.forall_mem_append, List.forall_mem_singleton,
        hp.valueAt?_eq]
      by_cases hab : b = a
      · simp [hab, eq_comm]
      · simp [hab, ih hearlier]
    · rw [Memory.portAddress_writes, hport, hcell]
      simp only [ioPort]
      omega

/-- What the preamble stores. -/
theorem cells_preamble_writes (m : Memory) (hport : m.portAddress = ioPort)
    (hempty : ∀ a : Int, m.cells[a]? = none) :
    (m.writes Code.preamble.loads).cells[a]? = some v ↔
      (a = negOne ∧ v = -1) ∨ (zero ≤ a ∧ a < negOne ∧ v = 0) := by
  simp only [Code.loads, Machine.preambleLoads, Memory.writes, List.foldl_cons, List.foldl_nil]
  rw [Memory.cells_write, Memory.cells_write, Memory.cells_write, Memory.cells_write,
    Memory.cells_write, hempty]
  · simp only [Memory.cellOf, zero, negOne, tempA, tempB, tempC]
    grind
  -- none of the five is the port
  all_goals simp [hport, Memory.cellOf, zero, negOne, tempA, tempB, tempC, ioPort]

/-- The first operation comes after the preamble and the leading definitions. -/
theorem Sound.split_listing (h : s.Sound) : ∃ rest,
    s.listing = preamble :: s.leadingDefinitions ++ rest ∧
      ∀ p ∈ rest.head?, p.code.isOperation = true := by
  obtain ⟨ps, hlisting, -⟩ := h.realized
  refine ⟨ps.dropWhile fun p => !p.code.isOperation, ?_, ?_⟩
  · rw [leadingDefinitions, hlisting, List.tail_cons, List.cons_append,
      List.takeWhile_append_dropWhile]
  · intro p hp
    have hhead := List.head?_dropWhile_not (fun p : Placement => !p.code.isOperation) ps
    rw [Option.mem_def.mp hp] at hhead
    simpa using hhead

/-- The loads with which a compiled program begins end at the first operation, or with the code. -/
theorem Sound.successor?_eq_none (h : s.Sound) {k : Int} {front rest : List Placement}
    (hlisting : s.listing = front ++ rest) (hfront : Tiles 0 front k) (hrest : Tiles k rest s.pc)
    (hhead : ∀ p ∈ rest.head?, p.code.isOperation = true) : s.program.successor? k = none := by
  rw [Option.eq_none_iff_forall_ne_some]
  intro next hnext
  obtain ⟨-, v, d, hfetch⟩ := Program.successor?_eq_some_iff.mp hnext
  -- the load would be in a placement that is no operation, before the address or after it
  obtain ⟨p, hp, hcode, hle, hlt⟩ := h.fetch_load hfetch
  rw [hlisting] at hp
  rcases List.mem_append.mp hp with hp | hp
  · have hbefore := hfront.mem hp
    omega
  · cases hrest with
    | nil => cases hp
    | @cons q qs _ _ hstart hqs =>
      rcases List.mem_cons.mp hp with rfl | hp
      · rw [hhead p rfl] at hcode
        cases hcode
      · have hafter := hqs.mem hp
        have hsize := q.code.size_pos
        omega

theorem length_loads_of_allDefining (hds : s.AllDefining ds) :
    (ds.flatMap (·.code.loads)).length = ds.length := by
  induction ds with
  | nil => rfl
  | cons p ds ih =>
    obtain ⟨_, _, _, _, hp⟩ := hds p List.mem_cons_self
    rw [List.flatMap_cons, List.length_append, ih fun q hq => hds q (List.mem_cons_of_mem p hq),
      hp.code, List.length_cons]
    exact Nat.add_comm 1 ds.length

/-- The preload of a compiled program executes the preamble and the leading definitions. -/
theorem Sound.preloads_leading (h : s.Sound) (m : Machine) :
    ∃ m', Machine.Preloads (5 + s.leadingDefinitions.length) (m.holding s.program).reset m' ∧
      m'.memory = m.memory.clear.writes
        (Code.preamble.loads ++ s.leadingDefinitions.flatMap (·.code.loads)) := by
  obtain ⟨rest, hlisting, hhead⟩ := h.split_listing
  have htiles := h.tiles
  rw [hlisting] at htiles
  obtain ⟨k, hfront, hrest⟩ := htiles.split
  have hnone : ∀ p ∈ preamble :: s.leadingDefinitions, p.code.isOperation = false := by
    intro p hp
    rcases List.mem_cons.mp hp with rfl | hp
    · rfl
    · obtain ⟨_, _, _, _, hdef⟩ := h.allDefining p hp
      rw [hdef.code]
      rfl
  -- the front of the listing is nothing but loads, one behind the other from the first cell
  obtain ⟨hk, hloads⟩ := hfront.loads hnone
  have hrow : s.program.HasLoads 0 ((preamble :: s.leadingDefinitions).flatMap (·.code.loads)) := by
    intro i v d hi
    obtain ⟨p, hp, j, hj, hcell⟩ := hloads i v d hi
    have hmem : p ∈ s.listing := by
      rw [hlisting]
      exact List.mem_append_left _ hp
    rw [hj, h.fetch hmem hcell, hj]
  have hcount : ((preamble :: s.leadingDefinitions).flatMap (·.code.loads)).length =
      5 + s.leadingDefinitions.length := by
    rw [List.flatMap_cons, List.length_append, length_loads_of_allDefining h.allDefining]
    rfl
  -- behind it comes an operation or nothing, and the preload stops at either
  have hstop := h.successor?_eq_none hlisting hfront hrest hhead
  have hroom : k ≤ Machine.maxPc := by
    have hbound := h.room
    have hle := hrest.le
    simp only [programLimit] at hbound
    simp only [Machine.maxPc]
    omega
  rw [hk] at hstop hroom
  have hpreloads := Machine.preloads_loads _ (m := (m.holding s.program).reset) hrow hroom hstop
  rw [hcount] at hpreloads
  exact hpreloads

/-- The preamble and the leading definitions leave what they say. -/
theorem Sound.leaves_writes (h : s.Sound) (m : Memory) (hport : m.portAddress = ioPort)
    (hempty : ∀ a : Int, m.cells[a]? = none) : s.Leaves
      (m.writes (Code.preamble.loads ++ s.leadingDefinitions.flatMap (·.code.loads))).cells := by
  intro a v
  -- variables lie below the reserved cells
  have habove : zero ≤ a → ∀ p ∈ s.leadingDefinitions, p.valueAt? a = none := by
    intro ha p hp
    obtain ⟨_, _, _, b, hdef⟩ := h.allDefining p hp
    have hb := h.address_mem hdef
    rw [hdef.valueAt?_eq, if_neg (by omega)]
  have hport' : (m.writes Code.preamble.loads).portAddress = ioPort :=
    (m.portAddress_writes _).trans hport
  rw [Memory.writes_append, h.cells_definitions h.allDefining _ hport',
    h.lastGiven_valueAt?_iff h.allDefining, cells_preamble_writes m hport hempty]
  constructor
  · rintro (hlast | ⟨-, hconstant | hzero⟩)
    · exact .inr (.inr hlast)
    · exact .inl hconstant
    · exact .inr (.inl hzero)
  · rintro (hconstant | hzero | hlast)
    · have ha : zero ≤ a := by
        rw [hconstant.1]
        decide
      exact .inr ⟨habove ha, .inl hconstant⟩
    · exact .inr ⟨habove hzero.1, .inr hzero⟩
    · exact .inl hlast

theorem Sound.preload_leaves (h : s.Sound) (m : Machine) (hport : m.memory.portAddress = ioPort) :
    ∃ m', (m.holding s.program).preload = some (5 + s.leadingDefinitions.length, m') ∧
      s.Leaves m'.memory.cells := by
  obtain ⟨m', hpreloads, hmemory⟩ := h.preloads_leading m
  refine ⟨m', Machine.preload_eq_some_iff.mpr hpreloads, ?_⟩
  rw [hmemory]
  apply h.leaves_writes
  · exact hport
  · intro a
    change (∅ : AddressMap Int)[a]? = none
    simp

end Session

/-! ## Preload and run -/

namespace Machine

/-- The preload, if it executes any load, comes to the same as a run of as many steps: the same is
stored, the same is handed out, the machine is at the same place, and neither is the input asked nor
a cell found missing. The preload of a compiled program executes the preamble and the definitions
that are placed before the first operation, and leaves what they say. -/
theorem preload_agrees :
    (∀ (m m' : Machine) (n : Nat), 1 ≤ n → m.preload = some (n, m') → m.RunsAlike n m') ∧
    ∀ (source : String) (s : Session) (m : Machine), Session.compile {} source = (s, none) →
      m.memory.portAddress = ioPort →
        ∃ m', (m.holding s.program).preload = some (5 + s.leadingDefinitions.length, m') ∧
          s.Leaves m'.memory.cells :=
  ⟨fun _ _ _ hn h => runsAlike_of_preload hn h,
    fun _ _ m h hport => (Session.sound_of_compile h).preload_leaves m hport⟩

/-- A program that defines a variable twice before the first operation and once after it; one of
its lines is rejected. -/
def scattered : String :=
  "DEF a 5\nDEF b $80\nDEF 12 3\nDEF a -7\nMOV a b\nDEF a 9\nJMP 255"

theorem preload_agrees_scattered :
    (Session.compile {} scattered).2 = none ∧
      ∃ m', ({} : Machine).memory.portAddress = ioPort ∧
        (({} : Machine).holding (Session.compile {} scattered).1.program).preload = some (8, m') ∧
        (({} : Machine).holding (Session.compile {} scattered).1.program).RunsAlike 8 m' ∧
        m'.memory.cells[(249 : Int)]? = some (-7) ∧
        m'.memory.cells[(248 : Int)]? = some (-128) := by
  have hraised : (Session.compile {} scattered).2 = none := by decide +kernel
  have hcompile := Session.compile_eq hraised
  have hleading : (Session.compile {} scattered).1.leadingDefinitions =
      [⟨5, .define 5 249, "DEF a 5"⟩, ⟨6, .define (-128) 248, "DEF b $80"⟩,
        ⟨7, .define (-7) 249, "DEF a -7"⟩] := by decide +kernel
  have ha : (Session.compile {} scattered).1.symbols.lookup? "a" = some 249 := by decide +kernel
  have hb : (Session.compile {} scattered).1.symbols.lookup? "b" = some 248 := by decide +kernel
  have hlastA : (Session.compile {} scattered).1.LastDefines
      (Session.compile {} scattered).1.leadingDefinitions "a" (-7) := by
    rw [hleading]
    exact ⟨"-7", 249, [], ⟨[_, _], _, rfl, by decide +kernel, nofun⟩, rfl, by decide⟩
  have hlastB : (Session.compile {} scattered).1.LastDefines
      (Session.compile {} scattered).1.leadingDefinitions "b" (-128) := by
    rw [hleading]
    exact ⟨"$80", 128, [_], ⟨[_], _, rfl, by decide +kernel, by decide +kernel⟩, rfl, by decide⟩
  obtain ⟨m', hpreload, hleaves⟩ := preload_agrees.2 scattered _ {} hcompile rfl
  rw [hleading] at hpreload
  exact ⟨hraised, m', rfl, hpreload, preload_agrees.1 _ _ 8 (by decide) hpreload,
    (hleaves 249 (-7)).mpr (.inr (.inr ⟨"a", ha, hlastA⟩)),
    (hleaves 248 (-128)).mpr (.inr (.inr ⟨"b", hb, hlastB⟩))⟩

end Machine

end Subleq
