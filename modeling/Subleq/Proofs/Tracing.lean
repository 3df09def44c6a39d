import Mathlib
import Subleq.Proofs.Limits
import Subleq.Proofs.Writing

/-!
# Subleq.Proofs.Tracing — what a trace shows, and what tracing changes

While a machine is traced, each cell whose execution begins is entered into the trace, also one that
faults. `begun` lists these cells for the first steps of any machine, and the trace holds what is left
of the list when all of it has been entered: its tail (`Trace.toList_pushAll`). How long the list is at
the end of a run, the count of executed instructions says (`begunCount`).

A run with a limit is a loop of steps between which empty cells are passed by, or a single step. Either
way (`Passing`) the loop follows the steps of the machine, and so does that of the traced machine, up to
the first cell that cannot be written (`loop_traced`). If there is none, the two runs end alike.
-/

namespace Subleq

/-! ## A trace as a tail -/

namespace Trace

variable {t : Trace} {lines : List String}

/-- Adds one line after the other. -/
def pushAll (t : Trace) (lines : List String) : Trace := lines.foldl push t

/-- The most recent lines are the last ones that were pushed, then those that were there. -/
theorem recent_pushAll (h : t.Counted) (lines : List String) :
    (t.pushAll lines).recent = (lines.reverse ++ t.recent).take limit := by
  induction lines generalizing t with
  | nil =>
    -- no more than the limit is ever kept
    have hkept : t.recent.length ≤ limit := List.length_take_le ..
    exact (List.take_of_length_le hkept).symm
  | cons line lines ih =>
    have hrest := ih (h.push line)
    rw [recent_push h] at hrest
    calc (t.pushAll (line :: lines)).recent
        = (lines.reverse ++ (line :: t.recent).take limit).take limit := hrest
      _ = (lines.reverse ++ line :: t.recent).take limit := by
          rw [List.take_append, List.take_append, List.take_take]
          congr 2
          omega
      _ = ((line :: lines).reverse ++ t.recent).take limit := by simp

/-- A trace that was empty holds the tail of what was entered. -/
theorem toList_pushAll (lines : List String) :
    (pushAll {} lines).toList = lines.drop (lines.length - limit) := by
  unfold toList
  rw [recent_pushAll counted_empty]
  have hnone : recent {} = [] := rfl
  rw [hnone, List.append_nil, List.take_reverse, List.reverse_reverse]

theorem pushAll_append (t : Trace) (lines lines' : List String) :
    t.pushAll (lines ++ lines') = (t.pushAll lines).pushAll lines' := List.foldl_append

/-- The lines of cells that can be written, as they are rendered. -/
theorem render_of_isWritable {cells : List TraceEntry} (h : ∀ e ∈ cells, e.IsWritable) :
    cells.map TraceEntry.render = (cells.map TraceEntry.text).map .ok := by
  rw [List.map_map]
  exact List.map_congr_left fun e he => e.writtenIf_render.ok (h e he)

end Trace

namespace Machine

variable {m m' m₁ : Machine}

/-! ## Cells whose execution begins -/

/-- The cell whose execution a step begins, if any. -/
def begins (m : Machine) : List TraceEntry := m.next?.toList

/-- The cells whose execution so many steps begin, first to last. -/
def begun : Nat → Machine → List TraceEntry
  | 0, _ => []
  | n + 1, m => m.begins ++ begun n m.step.2

/-- How many cells a run has begun to execute that ended in this way: the last one, if the run
faulted, is not among the instructions executed. -/
def begunCount : Except Fault StopReason × Machine → Nat
  | (.ok _, m) => m.steps
  | (.error _, m) => m.steps + 1

/-- A step either begins to execute a cell or passes by. -/
theorem next?_cases (m : Machine) : (m.pc < maxPc ∧ m.fetch m.pc ≠ .empty ∧
      m.next? = some ⟨m.pc, m.fetch m.pc⟩) ∨
    ((m.pc < maxPc → m.fetch m.pc = .empty) ∧ m.next? = none) := by
  have hempty : (m.fetch m.pc).isEmpty = true ↔ m.fetch m.pc = .empty := Cell.isEmpty_iff
  by_cases h : m.isHalted ∨ (m.fetch m.pc).isEmpty
  · refine .inr ⟨fun hpc => ?_, if_pos h⟩
    rcases h with hhalted | hcell
    · have hout : maxPc ≤ m.pc := by simpa [isHalted] using hhalted
      omega
    · exact hempty.mp hcell
  · rw [not_or] at h
    refine .inl ⟨by simpa [isHalted] using h.1, fun hcell => h.2 (hempty.mpr hcell), ?_⟩
    exact if_neg (not_or.mpr h)

/-- The instructions executed by a step that does not fault are those it begins. -/
theorem steps_of_not_faulted (h : ∀ cause, m.step.1 ≠ .faulted cause) :
    m.step.2.steps = m.steps + m.begins.length := by
  unfold begins
  rcases next?_cases m with ⟨hpc, hcell, hnext⟩ | ⟨hnone, hnext⟩
  · rcases steps_execute hpc hcell with ⟨-, hsteps⟩ | ⟨cause, hfault, -⟩
    · rw [hsteps, hnext]
      rfl
    · exact absurd hfault (h cause)
  · rw [steps_pass hnone, hnext]
    rfl

/-- A step that faults has begun one instruction and executed none. -/
theorem steps_of_faulted {cause : Fault} (h : m.step.1 = .faulted cause) :
    m.step.2.steps = m.steps ∧ m.begins.length = 1 := by
  refine ⟨(m.steps_step_le).2.2 cause h, ?_⟩
  unfold begins
  rcases next?_cases m with ⟨-, -, hnext⟩ | ⟨hnone, -⟩
  · rw [hnext]
    rfl
  · -- passing by does not fault
    exfalso
    rcases Int.lt_or_le m.pc maxPc with hpc | hpc
    · rw [step_of_empty hpc (hnone hpc)] at h
      exact settle_ne_faulted _ cause h
    · rw [step_of_halted hpc] at h
      cases h

theorem after_succ_left (m : Machine) (n : Nat) : m.after (n + 1) = m.step.2.after n :=
  Function.iterate_succ_apply (fun m : Machine => m.step.2) n m

theorem begun_add (m : Machine) (n k : Nat) :
    m.begun (n + k) = m.begun n ++ (m.after n).begun k := by
  induction n generalizing m with
  | zero => rw [Nat.zero_add, after_zero, begun, List.nil_append]
  | succ n ih =>
    rw [Nat.add_right_comm, begun, begun, ih, after_succ_left, List.append_assoc]

theorem begun_one (m : Machine) : m.begun 1 = m.begins := List.append_nil _

/-- Steps that do not stop the machine execute what they begin. -/
theorem Runs.steps_begun {n : Nat} (h : Runs n m m') : m'.steps = m.steps + (m.begun n).length := by
  induction h with
  | refl m => rfl
  | @step n m m₁ m₂ first rest ih =>
    have hfirst := steps_of_not_faulted (m := m) (by simp [first])
    rw [first] at hfirst
    rw [ih, hfirst, begun, List.length_append, first, Nat.add_assoc]

/-- Of the steps from one machine to another the cells come first that are begun up to there. -/
theorem Runs.begun_add {n : Nat} (h : Runs n m m') (k : Nat) :
    m.begun (n + k) = m.begun n ++ m'.begun k := by
  rw [Machine.begun_add, h.eq_after]

end Machine

/-- How a loop ends whose last step ends like this. -/
def StepOutcome.ending : StepOutcome → Except Fault StopReason
  | running => .ok .stepLimit
  | halted => .ok .halt
  | faulted cause => .error cause

namespace Machine

variable {m m' m₁ : Machine} {n : Nat}

/-- After a last step as many cells have been begun as are counted. -/
theorem Runs.begunCount_eq (h : Runs n m m₁) :
    m.steps + (m.begun (n + 1)).length = begunCount (m₁.step.1.ending, m₁.step.2) := by
  rw [h.begun_add, begun_one, List.length_append, ← Nat.add_assoc, ← h.steps_begun]
  cases hstep : m₁.step.1 with
  | faulted cause =>
    rcases steps_of_faulted hstep with ⟨hsteps, hone⟩
    rw [hone, ← hsteps]
    rfl
  | running => exact (steps_of_not_faulted (by simp [hstep])).symm
  | halted => exact (steps_of_not_faulted (by simp [hstep])).symm

end Machine

/-! ## Loops -/

section Loops

variable {σ : Type} {step : σ → StepOutcome × σ} {s : σ} {n : Nat}

theorem repeatStep_stop (h : n = 0 ∨ (step s).1 ≠ .running) :
    repeatStep step (n + 1) s = ((step s).1.ending, (step s).2) := by
  unfold repeatStep
  rcases hstep : step s with ⟨_ | _ | cause, s'⟩
  · obtain rfl : n = 0 := h.resolve_right fun hne => hne (by rw [hstep])
    rfl
  · rfl
  · rfl

theorem repeatStep_go (h : (step s).1 = .running) :
    repeatStep step (n + 1) s = repeatStep step n (step s).2 := by
  conv_lhs => unfold repeatStep
  rcases hstep : step s with ⟨_ | _ | cause, s'⟩
  · rfl
  · rw [hstep] at h
    cases h
  · rw [hstep] at h
    cases h

end Loops

namespace Machine

/-- Cells are passed by in one go that single steps pass by as well: the step that is made afterwards is
one that single steps come to, and no instruction has been executed by then. -/
def Passing (pass : Machine → Machine) : Prop :=
  ∀ m, ∃ k m₀, Runs k m m₀ ∧ m₀.steps = m.steps ∧ (pass m).step = m₀.step ∧
    (pass m).next? = m₀.next? ∧ ∀ e, m₀.next? = some e → m₀.start = (pass m).start

theorem passing_id : Passing id := fun m => ⟨0, m, .refl m, rfl, rfl, rfl, fun _ _ => rfl⟩

theorem passing_skipEmpty : Passing skipEmpty := by
  intro m
  rcases step_skipEmpty m with ⟨k, m₀, hruns, hsteps, hsame, hstart | ⟨hout, hnone⟩⟩
  · have hnext : m₀.start.next? = m.skipEmpty.start.next? := by rw [hstart]
    exact ⟨k, m₀, hruns, hsteps, hsame, hnext.symm, fun _ _ => hstart⟩
  · -- nothing is executed after the end of the program store
    have hnext : m₀.next? = none := by
      rcases m₀.next?_cases with ⟨hpc, hcell, -⟩ | ⟨-, hnext⟩
      · exact absurd (hnone hpc) hcell
      · exact hnext
    have hnext' : m.skipEmpty.next? = none := by
      rcases m.skipEmpty.next?_cases with ⟨hpc, -, -⟩ | ⟨-, hnext⟩
      · omega
      · exact hnext
    exact ⟨k, m₀, hruns, hsteps, hsame, hnext'.trans hnext.symm, fun e he => by simp [hnext] at he⟩

end Machine

namespace Tracer

open Machine

variable {pass : Machine → Machine} {n : Nat} {m : Machine}

/-- The machine with this trace, and traced. -/
def tracedWith (m : Machine) (trace : Trace) : Tracer := { machine := m, tracing := true, trace }

/-- A step of the loop of a traced machine. -/
def passStep (pass : Machine → Machine) (t : Tracer) : StepOutcome × Tracer :=
  { t with machine := pass t.machine }.step

theorem passStep_of_writable (hpass : Passing pass) (m : Machine) :
    ∃ k m₀, Runs k m m₀ ∧ m.begun k = [] ∧ (pass m).step = m₀.step ∧
      ((∀ e, m₀.next? = some e → e.IsWritable) → ∀ tr, passStep pass (tracedWith m tr) =
        (m₀.step.1, tracedWith m₀.step.2 (tr.pushAll (m₀.begins.map TraceEntry.text)))) ∧
      (∀ e, m₀.next? = some e → ¬e.IsWritable → ∀ tr, passStep pass (tracedWith m tr) =
        (.faulted .unwritable, tracedWith m₀.start tr)) := by
  rcases hpass m with ⟨k, m₀, hruns, hsteps, hsame, hnext, hstart⟩
  have hnone : m.begun k = [] := by
    have hcount := hruns.steps_begun
    exact List.eq_nil_of_length_eq_zero (by omega)
  refine ⟨k, m₀, hruns, hnone, hsame, ?_, ?_⟩
  · intro hwritable tr
    have hentry : (tracedWith (pass m) tr).entering? = m₀.next? := hnext
    have hcan : (tracedWith (pass m) tr).CanEnter := by
      intro e he
      exact hwritable e (hentry ▸ he)
    change (tracedWith (pass m) tr).step = _
    rw [step_of_canEnter hcan, entered, hentry]
    unfold begins
    cases m₀.next? with
    | none =>
      change ((pass m).step.1, tracedWith (pass m).step.2 tr) = _
      rw [hsame]
      rfl
    | some e =>
      change ((pass m).step.1, tracedWith (pass m).step.2 (tr.push e.text)) = _
      rw [hsame]
      rfl
  · intro e he hwritable tr
    have hentry : (tracedWith (pass m) tr).entering? = m₀.next? := hnext
    have hcan : ¬(tracedWith (pass m) tr).CanEnter := fun h => hwritable (h e (hentry.trans he))
    change (tracedWith (pass m) tr).step = _
    rw [step_of_not_canEnter hcan, hstart e he]
    rfl

/-- What the loop of a traced machine comes to, where the machine makes so many steps and then a last
one: if all cells that are begun can be written, they have been entered, and the end is that of the last
step; otherwise the loop ends where the first of the others was to be executed. -/
structure Traces (m : Machine) (k : Nat) (m₁ : Machine) (tr : Trace)
    (r : Except Fault StopReason × Tracer) : Prop where
  runs : Runs k m m₁
  writable : (∀ e ∈ m.begun (k + 1), e.IsWritable) → r = (m₁.step.1.ending,
    tracedWith m₁.step.2 (tr.pushAll ((m.begun (k + 1)).map TraceEntry.text)))
  unwritable : ∀ before e after, m.begun (k + 1) = before ++ e :: after →
    (∀ x ∈ before, x.IsWritable) → ¬e.IsWritable →
    ∃ j m₂, Runs j m m₂ ∧ m.begun j = before ∧ m₂.next? = some e ∧
      r = (.error .unwritable, tracedWith m₂.start (tr.pushAll (before.map TraceEntry.text)))

/-- Of the cells that are begun from a step on, one is that of the step or a later one. -/
theorem split_begins {rest before after : List TraceEntry} {e : TraceEntry}
    (h : m.begins ++ rest = before ++ e :: after) : before = [] ∧ m.next? = some e ∨
      ∃ before', before = m.begins ++ before' ∧ rest = before' ++ e :: after := by
  unfold begins at h ⊢
  cases hnext : m.next? with
  | none =>
    rw [hnext] at h
    exact .inr ⟨before, rfl, h⟩
  | some e' =>
    rw [hnext] at h
    cases before with
    | nil =>
      cases h
      exact .inl ⟨rfl, rfl⟩
    | cons x before =>
      cases h
      exact .inr ⟨before, rfl, rfl⟩

/-- The loop makes one step only. -/
theorem traces_stop (hpass : Passing pass) {m : Machine} (hstop : n = 0 ∨ (pass m).step.1 ≠ .running)
    (tr : Trace) : ∃ k m₁, repeatStep (fun m => (pass m).step) (n + 1) m =
        (m₁.step.1.ending, m₁.step.2) ∧
      Traces m k m₁ tr (repeatStep (passStep pass) (n + 1) (tracedWith m tr)) := by
  rcases passStep_of_writable hpass m with ⟨k, m₀, hruns, hnone, hsame, hwritten, hunwritten⟩
  have hbegun : m.begun (k + 1) = m₀.begins := by
    rw [hruns.begun_add, hnone, begun_one, List.nil_append]
  refine ⟨k, m₀, ?_, hruns, ?_, ?_⟩
  · have hlast : repeatStep (fun m => (pass m).step) (n + 1) m =
        ((pass m).step.1.ending, (pass m).step.2) := repeatStep_stop hstop
    rw [hlast, hsame]
  · intro hall
    have hstep := hwritten (fun e he => hall e (by simp [hbegun, begins, he])) tr
    rw [repeatStep_stop (hstop.imp_right fun h => by rw [hstep, ← hsame]; exact h), hstep, hbegun]
  · intro before e after hsplit _ hnot
    rw [hbegun, ← List.append_nil m₀.begins] at hsplit
    rcases split_begins hsplit with ⟨rfl, hnext⟩ | ⟨before', -, hnil⟩
    swap
    · simp at hnil
    have hstep := hunwritten e hnext hnot tr
    refine ⟨k, m₀, hruns, hnone, hnext, ?_⟩
    rw [repeatStep_stop (.inr (by simp [hstep])), hstep]
    rfl

/-- What the loop of a machine comes to, and what the loop of the same machine comes to if it is
traced. -/
theorem loop_traced (hpass : Passing pass) (n : Nat) (m : Machine) (tr : Trace) :
    ∃ k m₁, repeatStep (fun m => (pass m).step) (n + 1) m = (m₁.step.1.ending, m₁.step.2) ∧
      Traces m k m₁ tr (repeatStep (passStep pass) (n + 1) (tracedWith m tr)) := by
  induction n generalizing m tr with
  | zero => exact traces_stop hpass (.inl rfl) tr
  | succ n ih =>
    by_cases hgo : (pass m).step.1 = .running
    swap
    · exact traces_stop hpass (.inr hgo) tr
    -- a step that goes on, and the loop from there
    rcases passStep_of_writable hpass m with ⟨k, m₀, hruns, hnone, hsame, hwritten, hunwritten⟩
    rcases ih m₀.step.2 (tr.pushAll (m₀.begins.map TraceEntry.text)) with
      ⟨k', m₁, hloop, hruns', hwritable, hunwritable⟩
    have hone : Runs (k + 1) m m₀.step.2 :=
      hruns.trans (.one (Prod.ext (hsame ▸ hgo) rfl))
    have hbegun : ∀ j, m.begun (k + 1 + j) = m₀.begins ++ m₀.step.2.begun j := by
      intro j
      rw [hone.begun_add, hruns.begun_add, hnone, begun_one, List.nil_append]
    -- where the first cell can be written, the loop of the traced machine goes on too
    have hnext : (∀ e, m₀.next? = some e → e.IsWritable) →
        repeatStep (passStep pass) (n + 1 + 1) (tracedWith m tr) =
          repeatStep (passStep pass) (n + 1)
            (tracedWith m₀.step.2 (tr.pushAll (m₀.begins.map TraceEntry.text))) := by
      intro hfirst
      have hstep := hwritten hfirst tr
      rw [repeatStep_go (by rw [hstep, ← hsame]; exact hgo), hstep]
    refine ⟨k + 1 + k', m₁, ?_, hone.trans hruns', ?_, ?_⟩
    · rw [repeatStep_go (by exact hgo), ← hloop, hsame]
    · intro hall
      rw [Nat.add_assoc _ k' 1, hbegun] at hall ⊢
      rw [hnext fun e he => hall e (by simp [begins, he]),
        hwritable fun e he => hall e (List.mem_append_right _ he), List.map_append,
        Trace.pushAll_append]
    · intro before e after hsplit hbefore hnot
      rw [Nat.add_assoc _ k' 1, hbegun] at hsplit
      rcases split_begins hsplit with ⟨rfl, hfirst⟩ | ⟨before', rfl, hrest⟩
      · -- already the first cell cannot be entered
        have hstep := hunwritten e hfirst hnot tr
        refine ⟨k, m₀, hruns, hnone, hfirst, ?_⟩
        rw [repeatStep_stop (.inr (by simp [hstep])), hstep]
        rfl
      · rcases hunwritable before' e after hrest
            (fun x hx => hbefore x (List.mem_append_right _ hx)) hnot with
          ⟨j, m₂, hruns₂, hbegun₂, hnext₂, hend⟩
        refine ⟨k + 1 + j, m₂, hone.trans hruns₂, by rw [hbegun, hbegun₂], hnext₂, ?_⟩
        rw [hnext fun x hx => hbefore x (by simp [begins, hx]), hend, List.map_append,
          Trace.pushAll_append]

/-! ## Runs -/

/-- The run of a machine from the start with a limit, and that of the same machine if it is traced. What
was traced before is forgotten. -/
theorem run_traces (m : Machine) (tr : Trace) (n : Int) :
    ∃ k m₁, m.run n = (m₁.step.1.ending, m₁.step.2) ∧
      Traces m.reset k m₁ {} ((tracedWith m tr).run n) := by
  unfold Machine.run Tracer.run
  split
  · next hpos =>
    obtain ⟨k, hk⟩ : ∃ k, n.toNat = k + 1 := ⟨n.toNat - 1, by omega⟩
    rw [hk]
    exact loop_traced passing_skipEmpty k m.reset {}
  · exact loop_traced passing_id 0 m.reset {}

/-- The run of a machine that is not traced. -/
theorem run_untraced (m : Machine) (tr : Trace) (n : Int) :
    ({ machine := m, trace := tr } : Tracer).run n = ((m.run n).1, { machine := (m.run n).2 }) := by
  unfold Machine.run Tracer.run
  split
  · exact repeatStep_map (f := fun m => ({ machine := m } : Tracer)) (I := fun _ => True)
      (fun _ _ => rfl) (fun _ _ => trivial) n.toNat trivial
  · exact repeatStep_map (f := fun m => ({ machine := m } : Tracer)) (I := fun _ => True)
      (fun _ _ => rfl) (fun _ _ => trivial) 1 trivial

/-- A run ends like this: that with the limit, or, if there is none, all runs whose limit is not reached,
from some number of instructions on. -/
def Ends (limit : Option Int) (t : Tracer) (r : Except Fault StopReason × Tracer) : Prop :=
  match limit with
  | some n => t.run n = r
  | none => r.1 ≠ .ok .stepLimit ∧ ∃ n₀, ∀ n, n₀ ≤ n → t.run n = r

/-- The same machine, and its instructions are traced. -/
def traced (t : Tracer) : Tracer := { t with tracing := true }

/-- The same machine, and its instructions are not traced. -/
def untraced (t : Tracer) : Tracer := { t with tracing := false }

/-- A machine has begun a number of cells, and it begins another one next: so far there is one machine
only. -/
theorem eq_of_next {m m₁ m₂ : Machine} {i j : Nat} {e e' : TraceEntry} (h : Runs i m m₁)
    (h' : Runs j m m₂) (hbegun : m.begun i = m.begun j) (hnext : m₁.next? = some e)
    (hnext' : m₂.next? = some e') : m₁ = m₂ := by
  -- after the machine that comes first the other one has begun more cells
  have hlt : ∀ {m₁ m₂ : Machine} {i j : Nat} {e : TraceEntry}, Runs i m m₁ → Runs j m m₂ →
      m.begun i = m.begun j → m₁.next? = some e → ¬i < j := by
    intro m₁ m₂ i j e h h' hbegun hnext hlt
    obtain ⟨k, rfl⟩ : ∃ k, j = i + (k + 1) := ⟨j - i - 1, by omega⟩
    rw [h.begun_add, begun, begins, hnext] at hbegun
    simp at hbegun
  have hij : i = j := by
    have := hlt h h' hbegun hnext
    have := hlt h' h hbegun.symm hnext'
    omega
  subst hij
  exact h.eq_after.trans h'.eq_after.symm

/-- A loop of a traced machine that ends in another way has come to no cell that cannot be written. -/
theorem Traces.isWritable {m m₁ : Machine} {k : Nat} {tr : Trace}
    {r : Except Fault StopReason × Tracer} (h : Traces m k m₁ tr r) (hr : r.1 ≠ .error .unwritable) :
    ∀ e ∈ m.begun (k + 1), e.IsWritable := by
  cases hfind : (m.begun (k + 1)).find? fun e => ¬e.IsWritable with
  | none => simpa using hfind
  | some e =>
    -- the first such cell ends the loop
    rcases List.find?_eq_some_iff_append.mp hfind with ⟨hnot, before, after, hsplit, hbefore⟩
    rcases h.unwritable before e after hsplit (by simpa using hbefore) (by simpa using hnot) with
      ⟨_, _, -, -, -, hend⟩
    exact absurd (congrArg Prod.fst hend) hr

theorem ending_ne_stepLimit {outcome : StepOutcome} (h : outcome.ending ≠ .ok .stepLimit) :
    outcome ≠ .running := by
  rintro rfl
  exact h rfl

/-- The steps of a run that ends, with which its traced counterpart is described: whatever limit that is
looked at with, it comes to the same. -/
theorem Ends.traces {m : Machine} {limit : Option Int} {r : Except Fault StopReason × Tracer}
    {tr : Trace} (h : ({ machine := m, trace := tr } : Tracer).Ends limit r) :
    ∃ k m₁, Runs k m.reset m₁ ∧ r = (m₁.step.1.ending, { machine := m₁.step.2 }) ∧
      (∃ n, Traces m.reset k m₁ {} ((tracedWith m tr).run n)) ∧
      ∀ r', (∀ n, Traces m.reset k m₁ {} ((tracedWith m tr).run n) → (tracedWith m tr).run n = r') →
        (r'.1 = .ok .stepLimit → r.1 = .ok .stepLimit) → (tracedWith m tr).Ends limit r' := by
  cases limit with
  | some n =>
    rcases run_traces m tr n with ⟨k, m₁, hrun, htraces⟩
    have hr : r = (m₁.step.1.ending, { machine := m₁.step.2 }) := by
      have hends : _ = r := h
      rw [← hends, run_untraced, hrun]
    exact ⟨k, m₁, htraces.runs, hr, ⟨n, htraces⟩, fun r' hr' _ => hr' n htraces⟩
  | none =>
    rcases h with ⟨hstop, n₀, hall⟩
    rcases run_traces m tr n₀ with ⟨k, m₁, hrun, htraces⟩
    have hr : r = (m₁.step.1.ending, { machine := m₁.step.2 }) := by
      rw [← hall n₀ le_rfl, run_untraced, hrun]
    refine ⟨k, m₁, htraces.runs, hr, ⟨n₀, htraces⟩, fun r' hr' hlimit => ?_⟩
    refine ⟨fun hstop' => hstop (hlimit hstop'), n₀, fun n hn => hr' n ?_⟩
    -- the machine stops in one place only
    rcases run_traces m tr n with ⟨k', m₁', hrun', htraces'⟩
    have hr₁ : r.1 = m₁'.step.1.ending := by
      rw [← hall n hn, run_untraced, hrun']
    have hr₂ : r.1 = m₁.step.1.ending := by rw [hr]
    rcases htraces'.runs.eq_of_stops (ending_ne_stepLimit (hr₁ ▸ hstop)) htraces.runs
      (ending_ne_stepLimit (hr₂ ▸ hstop)) with ⟨rfl, rfl⟩
    exact htraces'

/-! ## The result -/

/-- The lines kept of cells that were entered into an empty trace, all of which can be written. -/
theorem toList_of_isWritable {cells : List TraceEntry} (h : ∀ e ∈ cells, e.IsWritable) :
    (Trace.pushAll {} (cells.map TraceEntry.text)).toList.map .ok =
      (cells.drop (cells.length - 10000)).map TraceEntry.render := by
  rw [Trace.toList_pushAll, List.length_map, List.map_drop, List.map_drop,
    Trace.render_of_isWritable h]
  rfl

/-- Tracing decides nothing as long as all cells that are begun can be written: at any limit and without
one, where a machine that is not traced has a run that ends, so has the traced one, and the two end in
the same way and leave the same machine. Of the cells whose execution the steps of the run begin, as many
as the instructions executed and one more if the run faults, the trace has a line each for the last
10000, first to last, and no other lines.

If there are cells that cannot be written, the run of the traced machine ends at the first one of them,
which is not executed; the trace is the tail of what was executed before. This is the only reason for
which the run of a traced machine ends where that of the other one does not. -/
theorem run_traced (t : Tracer) (limit : Option Int) :
    (∀ r, t.untraced.Ends limit r → ∃ k m₁, Runs k t.machine.reset m₁ ∧
      r = (m₁.step.1.ending, { machine := m₁.step.2 }) ∧
      (t.machine.reset.begun (k + 1)).length = begunCount (r.1, r.2.machine) ∧
      ((∀ e ∈ t.machine.reset.begun (k + 1), e.IsWritable) →
        ∃ tr : Trace, t.traced.Ends limit (r.1, tracedWith r.2.machine tr) ∧
          tr.toList.map .ok = ((t.machine.reset.begun (k + 1)).drop
            (begunCount (r.1, r.2.machine) - 10000)).map TraceEntry.render) ∧
      (∀ before e after, t.machine.reset.begun (k + 1) = before ++ e :: after →
        (∀ x ∈ before, x.IsWritable) → ¬e.IsWritable →
        ∃ j m₂, ∃ tr : Trace, Runs j t.machine.reset m₂ ∧ t.machine.reset.begun j = before ∧
          m₂.next? = some e ∧ m₂.steps = before.length ∧
          t.traced.Ends limit (.error .unwritable, tracedWith { m₂ with state := .running } tr) ∧
          tr.toList.map .ok =
            (before.drop (before.length - 10000)).map TraceEntry.render)) ∧
    (∀ r, t.traced.Ends limit r → r.1 ≠ .error .unwritable → ∃ r', t.untraced.Ends limit r') := by
  rcases t with ⟨m, tracing, tr⟩
  constructor
  · intro r hends
    rcases Ends.traces hends with ⟨k, m₁, hruns, rfl, ⟨n, htraces⟩, hall⟩
    have hzero : m.reset.steps = 0 := rfl
    have hcount := hruns.begunCount_eq
    rw [hzero, Nat.zero_add] at hcount
    refine ⟨k, m₁, hruns, rfl, hcount, fun hwritable => ?_, ?_⟩
    · refine ⟨_, hall _ (fun n htraces => htraces.writable hwritable) id, ?_⟩
      rw [← hcount]
      exact toList_of_isWritable hwritable
    · intro before e after hsplit hbefore hnot
      rcases htraces.unwritable before e after hsplit hbefore hnot with
        ⟨j, m₂, hruns₂, hbegun, hnext, -⟩
      have hsteps := hruns₂.steps_begun
      rw [hzero, Nat.zero_add, hbegun] at hsteps
      refine ⟨j, m₂, _, hruns₂, hbegun, hnext, hsteps, hall _ (fun n htraces' => ?_) nofun,
        toList_of_isWritable hbefore⟩
      rcases htraces'.unwritable before e after hsplit hbefore hnot with
        ⟨j', m₂', hruns₂', hbegun', hnext', hend⟩
      rw [hend, eq_of_next hruns₂' hruns₂ (hbegun'.trans hbegun.symm) hnext' hnext]
      rfl
  · intro r hends hwritable
    cases limit with
    | some n => exact ⟨_, rfl⟩
    | none =>
      rcases hends with ⟨hstop, n₀, hall⟩
      -- each of these runs stops, and the machine stops in one place only
      have hstops : ∀ n, n₀ ≤ n → ∃ k m₁, Runs k m.reset m₁ ∧
          m.run n = (m₁.step.1.ending, m₁.step.2) ∧ m₁.step.1.ending = r.1 := by
        intro n hn
        rcases run_traces m tr n with ⟨k, m₁, hrun, htraces⟩
        have hr : (tracedWith m tr).run n = r := hall n hn
        rw [hr] at htraces
        refine ⟨k, m₁, htraces.runs, hrun, ?_⟩
        rw [htraces.writable (htraces.isWritable hwritable)]
      rcases hstops n₀ le_rfl with ⟨k, m₁, hruns, hrun, hend⟩
      refine ⟨(r.1, { machine := m₁.step.2 }), hstop, n₀, fun n hn => ?_⟩
      rcases hstops n hn with ⟨k', m₁', hruns', hrun', hend'⟩
      rcases hruns'.eq_of_stops (ending_ne_stepLimit (hend' ▸ hstop)) hruns
        (ending_ne_stepLimit (hend ▸ hstop)) with ⟨rfl, rfl⟩
      change ({ machine := m, trace := tr } : Tracer).run n = _
      rw [run_untraced, hrun', hend']

/-- A program that faults at its second instruction, on a machine that still has the trace of another
one. -/
def stale : Tracer where
  machine := Machine.ofProgram
    (AddressMap.ofEntries [(0, .load 1 10 2), (2, .subleq 20 10 3)]) (Input.ofScript []) "out"
  trace := Trace.pushAll {} [" 77: loadim      5, m(  5),   5"]

theorem run_traced_stale : ∃ tr : Trace,
    (stale.untraced.run 9).1 = .error (.uninitialized 20 2) ∧
    (stale.untraced.run 9).2.machine.steps = 1 ∧
    stale.traced.run 9 =
      (.error (.uninitialized 20 2), tracedWith (stale.untraced.run 9).2.machine tr) ∧
    tr.toList = ["  0: loadim      1, m( 10),   2", "  2: subleq m( 20), m( 10),   3"] := by
  have hfault : (stale.untraced.run 9).1 = .error (.uninitialized 20 2) := by decide +kernel
  have hsteps : (stale.untraced.run 9).2.machine.steps = 1 := by decide +kernel
  have hlines : (stale.traced.run 9).2.trace.toList =
      ["  0: loadim      1, m( 10),   2", "  2: subleq m( 20), m( 10),   3"] := by decide +kernel
  have hends : stale.untraced.Ends (some 9) (stale.untraced.run 9) := rfl
  rcases (run_traced stale (some 9)).1 _ hends with ⟨k, m₁, hruns, hr, hcount, hwritten, -⟩
  have hcells : ∀ e ∈ stale.machine.reset.begun (k + 1), e.IsWritable := by
    -- the machine stops in one place only, which is after one step
    have hone : Runs 1 stale.machine.reset (stale.machine.reset.after 1) :=
      .one (Prod.ext (by decide +kernel) rfl)
    have hend : m₁.step.1.ending ≠ .ok .stepLimit := by
      have hfirst : (stale.untraced.run 9).1 = m₁.step.1.ending := congrArg Prod.fst hr
      rw [← hfirst, hfault]
      nofun
    rcases hruns.eq_of_stops (ending_ne_stepLimit hend) hone (by decide +kernel) with ⟨rfl, -⟩
    decide +kernel
  rcases hwritten hcells with ⟨tr, hrun, -⟩
  have hrun' : stale.traced.run 9 = ((stale.untraced.run 9).1,
    tracedWith (stale.untraced.run 9).2.machine tr) := hrun
  rw [hfault] at hrun'
  refine ⟨tr, hfault, hsteps, hrun', ?_⟩
  rw [hrun'] at hlines
  exact hlines

/-- A load of a number that is too long to be written. -/
def loading : Tracer where
  machine := Machine.ofProgram
    (AddressMap.ofEntries [(0, .load Text.numberLimit 10 256)]) (Input.ofScript []) "out"

/-- If it is traced, it faults where it halts otherwise. -/
theorem tracing_decides : ¬∀ (t : Tracer) (limit : Option Int) (r : Except Fault StopReason × Tracer),
    t.untraced.Ends limit r → ∃ tr : Trace, t.traced.Ends limit (r.1, tracedWith r.2.machine tr) := by
  intro hall
  have hhalts : (loading.untraced.run 5).1 = .ok .halt := by decide +kernel
  have hfaults : (loading.traced.run 5).1 = .error .unwritable := by decide +kernel
  rcases hall loading (some 5) _ rfl with ⟨tr, hends⟩
  have hrun : loading.traced.run 5 = ((loading.untraced.run 5).1, _) := hends
  rw [hrun, hhalts] at hfaults
  cases hfaults

end Tracer

end Subleq
