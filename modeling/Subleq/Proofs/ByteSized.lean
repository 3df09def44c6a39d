import Mathlib
import Subleq.Command
import Subleq.Proofs.Faults
import Subleq.Proofs.SignedBytes
import Subleq.Proofs.Tally
import Subleq.Proofs.Work

/-!
# Subleq.Proofs.ByteSized — machines whose numbers are short

In a program that comes from a file all numbers are bytes. A machine at the terminal that works on one
holds bytes only, and its program counter goes one further at most (`Machine.ByteSized`). Each step
keeps this, and so do runs and preloads.

Therefore all that is shown of such a machine can be written, but for the number of its steps: its
dumps are made, tracing it makes no difference to its runs (`ByteSized.run_tracer`), and where a run
faults no number was too long to be written (`ByteSized.fault_of_run`).
-/

namespace Subleq

/-! ## Numbers from outside -/

/-- The terminal gives signed bytes. -/
theorem Terminal.yieldsBytes_input (lines : List Line) : (input lines).YieldsBytes := by
  intro n v hv
  rcases answer_input lines n with hended | ⟨line, -, ⟨w, hline, hw⟩ | ⟨cause, -, hcause⟩⟩
  · cases hv.symm.trans hended
  · cases hv.symm.trans hw
    cases line with
    | undecodable fault => cases hline
    | text line =>
      have hread : readText line = .number v := hline
      unfold readText at hread
      simp only at hread
      split at hread
      · split at hread
        · cases hread
          exact Byte.decode_mem _
        · cases hread
      · split at hread <;> cases hread
  · cases hv.symm.trans hcause

/-- An address that is typed is one of the data store. -/
theorem Address.read_mem {text : String} {a : Int} (h : (Address.read text).1 = .ok a) :
    0 ≤ a ∧ a ≤ 255 := by
  unfold Address.read at h
  split at h
  · next hof =>
    cases h
    unfold Address.ofToken at hof
    split at hof
    · split at hof
      · split at hof
        · next hmem =>
          cases hof
          exact hmem
        · cases hof
      · cases hof
    · next digits _ =>
      cases hbinary : Literal.binaryByte digits with
      | error cause => simp [hbinary, Except.map, Except.mapError] at hof
      | ok v =>
        simp only [hbinary, Except.map, Except.mapError, Except.ok.injEq, Prod.mk.injEq] at hof
        exact hof.1 ▸ Literal.binaryByte_mem hbinary
    · next digits _ =>
      cases hhex : Literal.hexByte digits with
      | error cause => simp [hhex, Except.mapError] at hof
      | ok r =>
        simp only [hhex, Except.mapError, Except.ok.injEq] at hof
        cases hof
        exact Literal.hexByte_mem hhex
    · cases hof
  · cases h

/-- A program that comes from a file is one of bytes. -/
theorem Files.wellFormed_program {fs : Files} {path : String} {p : Program}
    (h : fs.program path = .ok p) : p.WellFormed := by
  unfold program at h
  split at h
  · unfold image at h
    split at h
    · cases h
    · next text _ =>
      cases hread : Image.read text with
      | error cause => simp [hread, Except.mapError] at h
      | ok p' =>
        simp only [hread, Except.mapError, Except.ok.injEq] at h
        exact h ▸ Image.wellFormed_of_read hread
  · unfold compiled at h
    split at h
    · cases h
    · next source _ =>
      cases hcompile : Session.compile {} source with
      | mk s failure =>
        cases failure with
        | some cause => simp [hcompile, Except.map] at h
        | none =>
          simp only [hcompile, Except.map, Except.ok.injEq] at h
          exact h ▸ (Session.sound_of_compile hcompile).wellFormed

theorem Program.WellFormed.loadsBytes {p : Program} (h : p.WellFormed) : p.LoadsBytes := by
  intro a c hc
  have hfits := (h a c hc).2
  cases c with
  | load v d next => exact hfits.1
  | subleq a b target => trivial

namespace Memory

variable {m : Memory}

/-- Stored cells have addresses of the data store. -/
def InStore (m : Memory) : Prop := ∀ (a v : Int), m.cells[a]? = some v → 0 ≤ a ∧ a ≤ 255

theorem inStore_empty (h : m.cells = ∅) : m.InStore := by
  intro a v hv
  rw [h, Std.ExtTreeMap.getElem?_empty] at hv
  cases hv

theorem InStore.write (h : m.InStore) (hwired : m.Wired) (a v : Int) : (m.write a v).InStore := by
  intro k w hw
  rw [get?_write hwired] at hw
  split at hw
  · next hk =>
    rw [hk.2]
    exact cellOf_mem a
  · exact h k w hw

end Memory

namespace Machine

variable {m m' : Machine} {n : Nat}

/-! ## The invariant -/

/-- All numbers of the machine are bytes, but the program counter can be at the end of the program
store. -/
structure ByteSized (m : Machine) : Prop where
  program : m.program.WellFormed
  counter : 0 ≤ m.pc ∧ m.pc ≤ maxPc
  wired : m.memory.Wired
  addresses : m.memory.InStore
  data : ∃ past, m.memory.HoldsBytes past

/-- A machine that is made for a program of bytes and attached to a terminal. -/
theorem byteSized_ofProgram {p : Program} (hp : p.WellFormed) (lines : List Terminal.Line)
    (output : String) : (ofProgram p (Terminal.input lines) output).ByteSized where
  program := hp
  counter := ⟨le_rfl, (by decide : (0 : Int) ≤ 256)⟩
  wired := ⟨rfl, rfl, rfl⟩
  addresses := Memory.inStore_empty rfl
  data := by
    refine ⟨_, bytes_reset (m := ofProgram p (Terminal.input lines) output) ?_⟩
    rintro i ⟨rfl⟩
    exact Terminal.yieldsBytes_input lines

namespace ByteSized

theorem reset (h : m.ByteSized) : m.reset.ByteSized where
  program := h.program
  counter := ⟨le_rfl, (by decide : (0 : Int) ≤ 256)⟩
  wired := ⟨h.wired.port, h.wired.input, h.wired.output⟩
  addresses := Memory.inStore_empty rfl
  data := by
    rcases h.data with ⟨past, hdata⟩
    exact ⟨_, bytes_reset hdata.input⟩

theorem fits (h : m.ByteSized) (a : Int) : (m.fetch a).Fits := h.program.fits a

/-- What a step can do to the program counter and to the stored cells keeps them in their bounds. -/
theorem step (h : m.ByteSized) : m.step.2.ByteSized := by
  rcases h.counter with ⟨hlow, hhigh⟩
  have hfits := h.fits m.pc
  have hbounds : (0 ≤ m.step.2.pc ∧ m.step.2.pc ≤ maxPc) ∧ m.step.2.memory.InStore := by
    unfold Memory.InStore
    cases effect_step h.wired with
    | halt _ _ hpc' hcells => exact ⟨by omega, hcells ▸ h.addresses⟩
    | pass hpc _ _ hpc' hcells => exact ⟨by omega, hcells ▸ h.addresses⟩
    | @load v d next _ hcell _ hpc' hcells =>
      rw [hcell] at hfits
      have hnext := hfits.2.2
      exact ⟨by simp only [maxPc]; omega, hcells ▸ h.addresses.write h.wired d v⟩
    | @subtract a b target x y hpc hcell _ _ _ _ hpc' hcells =>
      rw [hcell] at hfits
      have htarget := hfits.2.2
      refine ⟨?_, hcells ▸ h.addresses.write h.wired b _⟩
      rw [hpc']
      split
      · simp only [maxPc]
        omega
      · omega
    | fault _ _ _ _ _ hpc' hcells => exact ⟨by omega, hcells ▸ h.addresses⟩
  rcases h.data with ⟨past, hdata⟩
  refine ⟨?_, hbounds.1, wired_step h.wired, hbounds.2,
    ⟨past, bytes_step h.program.loadsBytes hdata⟩⟩
  rw [program_step]
  exact h.program

theorem after (h : m.ByteSized) (n : Nat) : (m.after n).ByteSized :=
  after_induction h (fun _ => step) n

theorem run (h : m.ByteSized) (limit : Int) : (m.run limit).2.ByteSized := by
  -- a run ends after steps from the start, with or without a last one
  have hsteps : ∀ {k m₁}, Runs k m.reset m₁ → m₁.ByteSized := fun hruns =>
    hruns.eq_after ▸ h.reset.after _
  rcases run_cases m limit with ⟨k, m₁, m₂, hruns, hlast, heq⟩ |
    ⟨k, m₁, m₂, fault, hruns, hlast, heq⟩ | ⟨k, m₁, hruns, -, heq⟩
  · rw [heq, ← congrArg Prod.snd hlast]
    exact (hsteps hruns).step
  · rw [heq, ← congrArg Prod.snd hlast]
    exact (hsteps hruns).step
  · rw [heq]
    exact hsteps hruns

/-- Executing a load outside of a step. -/
theorem executeLoad (h : m.ByteSized) {v d next : Int} (hcell : m.fetch m.pc = .load v d next) :
    (m.executeLoad v d next).ByteSized := by
  rcases h.data with ⟨past, hdata⟩
  have hfits := h.fits m.pc
  rw [hcell] at hfits
  rcases hfits with ⟨hv, -, hnext⟩
  refine ⟨h.program, ?_, h.wired.write d v, h.addresses.write h.wired d v, past, hdata.write d hv⟩
  exact ⟨hnext.1, hnext.2.trans (by decide)⟩

theorem preload (h : m.ByteSized) {count : Nat} (hpreload : m.preload = some (count, m')) :
    m'.ByteSized := by
  have hloads : ∀ {n m₁ m₂}, Preloads n m₁ m₂ → m₁.ByteSized → m₂.ByteSized := by
    intro n m₁ m₂ hpreloads hm
    induction hpreloads with
    | halted | stopped => exact hm
    | load _ hcell _ ih => exact ih (hm.executeLoad hcell)
  exact hloads (preload_eq_some_iff.mp hpreload) h.reset

/-! ## What is shown of the machine -/

theorem isWritable_pc (h : m.ByteSized) : Text.IsWritable m.pc := by
  rcases h.counter with ⟨hlow, hhigh⟩
  exact Text.isWritable_of_lt (by omega) (Int.lt_of_le_of_lt hhigh (by decide))

/-- All that is stored can be written. -/
theorem isWritable_cells (h : m.ByteSized) {a v : Int} (hv : m.memory.cells[a]? = some v) :
    Text.IsWritable a ∧ Text.IsWritable v := by
  rcases h.data with ⟨past, hdata⟩
  have ha := h.addresses a v hv
  have hv' : -128 ≤ v ∧ v ≤ 127 := hdata.cells a v hv
  exact ⟨Text.isWritable_of_lt (by omega) (by omega), Text.isWritable_of_lt (by omega) (by omega)⟩

theorem exists_dump (h : m.ByteSized) : ∃ text, m.memory.dump = .ok text :=
  ⟨_, m.memory.writtenIf_dump.ok fun _ he =>
    h.isWritable_cells (Std.ExtTreeMap.mem_toList_iff_getElem?_eq_some.mp he)⟩

theorem exists_ramLine (h : m.ByteSized) {a : Int} (ha : 0 ≤ a ∧ a ≤ 255) :
    ∃ text, Command.ramLine a (m.memory.get? a) = .ok text := by
  have haddress := (Text.writtenIf_field 3 a).ok (Text.isWritable_of_lt (by omega) (by omega))
  unfold Command.ramLine
  cases hget : m.memory.get? a with
  | none =>
    simp only [haddress]
    exact ⟨_, rfl⟩
  | some v =>
    simp only [haddress, (Text.writtenIf_field 3 v).ok (h.isWritable_cells hget).2]
    exact ⟨_, rfl⟩

/-! ## Tracing -/

theorem isWritable_next (h : m.ByteSized) {e : TraceEntry} (he : m.next? = some e) :
    e.IsWritable := by
  rcases next?_cases m with ⟨-, -, hnext⟩ | ⟨-, hnext⟩
  · cases hnext.symm.trans he
    exact ⟨h.isWritable_pc, (h.fits m.pc).isWritable⟩
  · cases hnext.symm.trans he

theorem isWritable_begun (h : m.ByteSized) (n : Nat) : ∀ e ∈ m.begun n, e.IsWritable := by
  induction n generalizing m with
  | zero => exact nofun
  | succ n ih =>
    intro e he
    rcases List.mem_append.mp he with he | he
    · exact h.isWritable_next (Option.mem_toList.mp he)
    · exact ih h.step e he

/-- Whether the machine is traced makes no difference to its run. -/
theorem run_tracer (h : m.ByteSized) (tracing : Bool) (limit : Int) : ∃ trace,
    ({ machine := m, tracing } : Tracer).run limit =
      ((m.run limit).1, { machine := (m.run limit).2, tracing, trace }) := by
  cases tracing with
  | false => exact ⟨{}, Tracer.run_untraced m {} limit⟩
  | true =>
    rcases Tracer.run_traces m {} limit with ⟨k, m₁, hrun, htraces⟩
    rw [hrun]
    exact ⟨_, htraces.writable (h.reset.isWritable_begun (k + 1))⟩

/-! ## Faults -/

/-- A run faults because an operand was never written, or for a reason that the input gives. -/
theorem fault_of_run (h : m.ByteSized) (hinput : m.memory.FailsWith Terminal.Refusal) {limit : Int}
    {fault : Fault} (hrun : (m.run limit).1 = .error fault) :
    (∃ address pc, fault = .uninitialized address pc) ∨
      ∃ cause, Terminal.Refusal cause ∧ fault = .input cause := by
  rcases Machine.fault_of_run hrun with ⟨n, read, hfails, rfl⟩
  have hpc := (h.reset.after n).isWritable_pc
  have hreset : m.reset.memory.FailsWith Terminal.Refusal := hinput
  cases read with
  | uninitialized c =>
    exact .inl ⟨_, _, ReadFault.fault_eq_uninitialized_iff.mpr
      ⟨rfl, rfl, hfails.isWritable, hpc⟩⟩
  | input cause =>
    have hcause := hfails.cause (after_failsWith hreset n)
    refine .inr ⟨cause, hcause, ReadFault.fault_eq_input_iff.mpr ⟨rfl, ?_⟩⟩
    rintro c rfl
    rcases hcause with hcause | ⟨_, hcause⟩ | ⟨_, hcause⟩ <;> cases hcause

end ByteSized

end Machine

/-- The cells of a program of bytes can be shown. -/
theorem Command.exists_romLine {p : Program} (hp : p.WellFormed) {a : Int} (ha : 0 ≤ a ∧ a ≤ 255) :
    ∃ text, romLine a (p.fetch a) = .ok text :=
  ⟨_, ((Text.writtenIf_field 3 a).bind ((p.fetch a).writtenIf_disassemble.bind_pure _)).ok
    ⟨Text.isWritable_of_lt (by omega) (by omega), (hp.fits a).isWritable⟩⟩

theorem Program.WellFormed.exists_dump {p : Program} (hp : p.WellFormed) :
    ∃ text, p.dump = .ok text := ⟨_, p.writtenIf_dump.ok (isWritable_of_fits hp)⟩

end Subleq
