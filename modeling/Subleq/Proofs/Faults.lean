import Mathlib
import Subleq.Proofs.Atomicity
import Subleq.Proofs.Preload
import Subleq.Terminal

/-!
# Subleq.Proofs.Faults — what can go wrong while a machine works

A machine never changes its program while it works (`program_run`, `program_preload`). It faults if
an operand was never written or if its input refuses to reply (`fault_of_run`), and then for one of
the reasons for which that input ever refuses (`FailsReading.cause`). The terminal refuses when its text
is used up, when a number is too long, and when what comes from it is no text
(`Terminal.failsWith_input`), and for no other reason.
-/

namespace Subleq

/-- All refusals of the input have causes of this kind. -/
def Input.FailsWith (P : InputFault → Prop) (i : Input) : Prop :=
  ∀ n cause, (i.replies n).answer = .error cause → P cause

namespace Terminal

/-- The reasons for which the terminal gives no number. -/
def Refusal (cause : InputFault) : Prop :=
  cause = .textEnded ∨ (∃ n, cause = .tooManyDigits n) ∨ ∃ fault, cause = .encoding fault

/-- A line that cannot be read has one of these reasons. -/
theorem refusal_of_readLine {line : Line} {cause : InputFault} (h : readLine line = .failed cause) :
    Refusal cause := by
  cases line with
  | undecodable fault =>
    cases h
    exact .inr (.inr ⟨fault, rfl⟩)
  | text line =>
    have hread : readText line = .failed cause := h
    unfold readText at hread
    simp only at hread
    split at hread
    · split at hread
      · cases hread
      · cases hread
        exact .inr (.inl ⟨_, rfl⟩)
    · split at hread <;> cases hread

/-- A reply is that of some line that is not refused, or there are no more lines. -/
theorem answer_of_mem_replies {prompt shown : String} {lines : List Line} {r : Reply × List Line}
    (hr : r ∈ replies prompt shown lines) : r.1.answer = .error .textEnded ∨ ∃ line ∈ lines,
      (∃ v, readLine line = .number v ∧ r.1.answer = .ok v) ∨
        ∃ cause, readLine line = .failed cause ∧ r.1.answer = .error cause := by
  induction lines generalizing shown with
  | nil =>
    simp only [replies, List.mem_singleton] at hr
    exact .inl (by rw [hr])
  | cons line lines ih =>
    -- the reply of this line, or one of the lines after it
    have hcases : ((∃ v, readLine line = .number v ∧ r.1.answer = .ok v) ∨
          ∃ cause, readLine line = .failed cause ∧ r.1.answer = .error cause) ∨
        ∃ shown, r ∈ replies prompt shown lines := by
      unfold replies at hr
      split at hr
      · next v hline =>
        rcases List.mem_cons.mp hr with rfl | hr
        · exact .inl (.inl ⟨v, hline, rfl⟩)
        · exact .inr ⟨_, hr⟩
      · next cause hline =>
        rcases List.mem_cons.mp hr with rfl | hr
        · exact .inl (.inr ⟨cause, hline, rfl⟩)
        · exact .inr ⟨_, hr⟩
      · exact .inr ⟨_, hr⟩
    rcases hcases with hline | ⟨shown, hr⟩
    · exact .inr ⟨line, List.mem_cons_self, hline⟩
    · rcases ih hr with hended | ⟨line', hmem, hline⟩
      · exact .inl hended
      · exact .inr ⟨line', List.mem_cons_of_mem line hmem, hline⟩

theorem answer_input (lines : List Line) (n : Nat) :
    ((input lines).replies n).answer = .error .textEnded ∨ ∃ line ∈ lines,
      (∃ v, readLine line = .number v ∧ ((input lines).replies n).answer = .ok v) ∨
        ∃ cause, readLine line = .failed cause ∧
          ((input lines).replies n).answer = .error cause := by
  rw [input, Input.ofList_replies, List.getElem?_map]
  cases hn : (replies prompt "" lines)[n]? with
  | none => exact .inl rfl
  | some r => exact answer_of_mem_replies (List.mem_of_getElem? hn)

theorem failsWith_input (lines : List Line) : (input lines).FailsWith Refusal := by
  intro n cause h
  rcases answer_input lines n with hended | ⟨line, -, ⟨v, -, hv⟩ | ⟨cause', hline, hcause⟩⟩
  · cases h.symm.trans hended
    exact .inl rfl
  · cases h.symm.trans hv
  · cases h.symm.trans hcause
    exact refusal_of_readLine hline

end Terminal

namespace Memory

variable {P : InputFault → Prop} {m : Memory}

/-- So have all refusals of the input that is installed, if one is. -/
def FailsWith (P : InputFault → Prop) (m : Memory) : Prop :=
  ∀ i, m.input = some i → i.FailsWith P

theorem Refuses.cause (h : m.FailsWith P) {a : Int} {cause : InputFault} (hr : m.Refuses a cause) :
    P cause := by
  rcases hr with ⟨i, hi, -, hanswer⟩
  exact h i hi i.taken cause hanswer

theorem FailsWith.read (h : m.FailsWith P) (a : Int) : (m.read a).2.FailsWith P := by
  by_cases hasks : m.Asks a
  · -- the port: the input has given one reply more
    rcases Option.isSome_iff_exists.mp hasks.1 with ⟨i, hi⟩
    rw [read_of_asks hi hasks.2]
    intro j hj
    cases hj
    exact h i hi
  · rw [read_of_not_asks hasks]
    unfold readCell
    split
    · exact h
    · exact h

theorem FailsWith.readBoth (h : m.FailsWith P) (a b : Int) : (m.readBoth a b).2.FailsWith P := by
  have ha := h.read a
  unfold Memory.readBoth
  generalize m.read a = result at ha
  rcases result with ⟨fault | x, m₁⟩
  · exact ha
  · have hb := FailsWith.read ha b
    simp only at hb ⊢
    generalize m₁.read b = result at hb
    rcases result with ⟨fault | y, m₂⟩
    · exact hb
    · exact hb

theorem FailsWith.write (h : m.FailsWith P) (a v : Int) : (m.write a v).FailsWith P := by
  unfold Memory.write
  split
  · split
    · exact h
    · exact h
  · exact h

end Memory

namespace Machine

variable {P : InputFault → Prop} {m : Machine}

/-! ## Steps and runs -/

theorem step_failsWith (h : m.memory.FailsWith P) : m.step.2.memory.FailsWith P := by
  rcases Int.lt_or_le m.pc maxPc with hpc | hpc
  swap
  · rw [step_of_halted hpc]
    exact h
  cases hcell : m.fetch m.pc with
  | load v d next =>
    rw [step_of_load hpc hcell, settle_memory]
    exact h.write d v
  | subleq a b target =>
    by_cases hne : Cell.subleq a b target = .empty
    · rw [hne] at hcell
      rw [step_of_empty hpc hcell, settle_memory]
      exact h
    · have hread := h.readBoth a b
      rw [step_of_subleq hpc hcell hne, executeSubleq_eq, start_memory]
      generalize m.memory.readBoth a b = result at hread
      rcases result with ⟨fault | ⟨x, y⟩, memory⟩
      · exact hread
      · rw [conclude, settle_memory]
        exact hread.write b _

theorem after_failsWith (h : m.memory.FailsWith P) (n : Nat) : (m.after n).memory.FailsWith P :=
  after_induction (I := fun m => m.memory.FailsWith P) h (fun _ hm => step_failsWith hm) n

/-- An instruction that is not executed because of the input fails for one of its reasons. -/
theorem FailsReading.cause (h : m.memory.FailsWith P) {cause : InputFault}
    (hfails : m.FailsReading (.input cause)) : P cause := by
  rcases hfails with ⟨-, a, b, -, -, -, hrefuses | ⟨-, -, hrefuses⟩⟩
  · exact hrefuses.cause h
  · exact hrefuses.cause (h.read a)

/-- A run that faults does so because an operand cannot be read after a number of steps. -/
theorem fault_of_run {limit : Int} {cause : Fault} (h : (m.run limit).1 = .error cause) :
    ∃ n fault, (m.reset.after n).FailsReading fault ∧ cause = fault.fault (m.reset.after n).pc := by
  -- only the middle case has a fault, that of the last step
  rcases run_cases m limit with ⟨k, m₁, m₂, -, -, heq⟩ | ⟨k, m₁, m₂, fault, hruns, hstep, heq⟩ |
    ⟨k, m₁, -, -, heq⟩
  · simp [heq] at h
  · have hfault : fault = cause := by simpa [heq] using h
    rcases faulted_iff.mp (congrArg Prod.fst hstep) with ⟨read, hfails, hcause⟩
    rw [hruns.eq_after] at hfails hcause
    exact ⟨k, read, hfails, hfault ▸ hcause⟩
  · simp [heq] at h

/-! ## The program -/

theorem program_run (m : Machine) (limit : Int) : (m.run limit).2.program = m.program := by
  have hafter : ∀ {k m₁}, Runs k m.reset m₁ → m₁.program = m.program := by
    intro k m₁ hruns
    rw [hruns.eq_after, program_after]
    rfl
  have hstep : ∀ {k m₁ m₂ outcome}, Runs k m.reset m₁ → m₁.step = (outcome, m₂) →
      m₂.program = m.program := by
    intro k m₁ m₂ outcome hruns hstep
    have hkept := program_step m₁
    rw [hstep] at hkept
    exact hkept.trans (hafter hruns)
  rcases run_cases m limit with ⟨k, m₁, m₂, hruns, hlast, heq⟩ |
    ⟨k, m₁, m₂, fault, hruns, hlast, heq⟩ | ⟨k, m₁, hruns, -, heq⟩
  · rw [heq]
    exact hstep hruns hlast
  · rw [heq]
    exact hstep hruns hlast
  · rw [heq]
    exact hafter hruns

theorem Preloads.program {n : Nat} {m' : Machine} (h : Preloads n m m') :
    m'.program = m.program := by
  induction h with
  | halted | stopped => rfl
  | load _ _ _ ih => exact ih

theorem program_preload {count : Nat} {m' : Machine} (h : m.preload = some (count, m')) :
    m'.program = m.program := (preload_eq_some_iff.mp h).program

end Machine

end Subleq
