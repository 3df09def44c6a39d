import Subleq.Log
import Subleq.Machine

/-!
# Subleq.Machine.Run — runs

A run begins at the first cell with nothing stored and goes on until the machine halts, an
instruction faults, or a limit on the number of instructions is reached. Empty cells between
instructions are passed by without counting. A machine that never leaves the program store has no
run without a limit; `run` with an ever larger limit then stops at the limit each time.

The preload executes the loads that a program begins with, each followed to its successor.
-/

namespace Subleq

/-- Why a run stops without a fault. -/
inductive StopReason where
  | halt
  | stepLimit
deriving Repr, DecidableEq

def StopReason.name : StopReason → String
  | .halt => "HALT"
  | .stepLimit => "STEP_LIMIT"

/-- The first address from `pc` on, within `room` cells, at which the store is not empty, or the
address after these cells. -/
def Program.skipEmpty (p : Program) : Nat → Int → Int
  | 0, pc => pc
  | room + 1, pc => if (p.fetch pc).isEmpty then p.skipEmpty room (pc + 1) else pc

/-- Makes one step after the other, at most the given number of them, until one stops. -/
def repeatStep {σ : Type} (step : σ → StepOutcome × σ) : Nat → σ → Except Fault StopReason × σ
  | 0, s => (.ok .stepLimit, s)
  | n + 1, s =>
    match step s with
    | (.halted, s) => (.ok .halt, s)
    | (.faulted cause, s) => (.error cause, s)
    | (.running, s) => repeatStep step n s

/-- Where steps of two kinds correspond, so do repeated steps. The correspondence may rest on what the
steps keep. -/
theorem repeatStep_map {σ τ : Type} {step : σ → StepOutcome × σ} {step' : τ → StepOutcome × τ}
    {f : σ → τ} {I : σ → Prop} (hstep : ∀ s, I s → step' (f s) = ((step s).1, f (step s).2))
    (hkept : ∀ s, I s → I (step s).2) (n : Nat) {s : σ} (hs : I s) :
    repeatStep step' n (f s) = ((repeatStep step n s).1, f (repeatStep step n s).2) := by
  induction n generalizing s with
  | zero => rfl
  | succ n ih =>
    have hnext := hkept s hs
    unfold repeatStep
    rw [hstep s hs]
    generalize step s = r at hnext ⊢
    rcases r with ⟨_ | _ | _, s'⟩
    · exact ih hnext
    · rfl
    · rfl

namespace Machine

/-- Passes by the empty cells up to the next instruction or to the end of the program store. -/
def skipEmpty (m : Machine) : Machine :=
  { m with pc := m.program.skipEmpty (maxPc - m.pc).toNat m.pc }

/-- Executes at most the given number of instructions. -/
def runFor (n : Nat) (m : Machine) : Except Fault StopReason × Machine :=
  repeatStep (fun m => m.skipEmpty.step) n m

theorem runFor_succ (n : Nat) (m : Machine) : runFor (n + 1) m =
    match m.skipEmpty.step with
    | (.halted, m) => (.ok .halt, m)
    | (.faulted cause, m) => (.error cause, m)
    | (.running, m) => runFor n m := by
  rcases hstep : m.skipEmpty.step with ⟨_ | _ | _, m'⟩ <;> simp [runFor, repeatStep, hstep]

/-- One step, after which a machine that has not stopped is at its limit. -/
def runOnce (m : Machine) : Except Fault StopReason × Machine := repeatStep step 1 m

theorem runOnce_eq (m : Machine) : m.runOnce =
    match m.step with
    | (.halted, m) => (.ok .halt, m)
    | (.faulted cause, m) => (.error cause, m)
    | (.running, m) => (.ok .stepLimit, m) := by
  rcases hstep : m.step with ⟨_ | _ | _, m'⟩ <;> simp [runOnce, repeatStep, hstep]

/-- Runs the program from the start. The limit is looked at after each step, so one step is made
even if the limit is zero or less. -/
def run (m : Machine) (limit : Int) : Except Fault StopReason × Machine :=
  if 1 ≤ limit then runFor limit.toNat m.reset else m.reset.runOnce

/-! ## Preload -/

/-- Follows loads up to a cell that is none, and counts them; gives up when there are more than the
given number. -/
def preloadFor : Nat → Machine → Option (Nat × Machine)
  | n, m =>
    if m.isHalted then some (0, m)
    else
      match m.fetch m.pc, n with
      | .load value dest next, n + 1 =>
        (preloadFor n (m.executeLoad value dest next)).map fun (count, m) => (count + 1, m)
      | .load .., 0 => none
      | .subleq .., _ => some (0, m)

/-- Executes the leading loads from the start and counts them. A chain of loads that is longer than
the program has cells comes back to one of them and never ends. -/
def preload (m : Machine) : Option (Nat × Machine) := preloadFor m.program.size m.reset

/-! ## Reports -/

/-- What is logged when a run has come to its end. A record is made only where its numbers can be
written. -/
def runLog (limit : Option Int) : Except Fault StopReason × Machine → List LogRecord
  | (.ok .halt, m) => LogRecord.writing .info .machine do
    return s!"halted after {← Text.written m.steps} instructions"
  | (.ok .stepLimit, m) =>
    limit.toList.flatMap fun n => LogRecord.writing .info .machine do
      return s!"step limit {← Text.written n} reached at pc {← Text.written m.pc}"
  | (.error fault, _) =>
    match fault with
    | .uninitialized address pc | .relayed address pc => LogRecord.writing .error .machine do
      return s!"pc {← Text.written pc}: {uninitializedMessage address}"
    | .input _ | .unwritable => []

/-- What is logged when a preload has come to its end. -/
def preloadLog (count : Nat) : List LogRecord :=
  [⟨.info, .machine, s!"preload executed {count} load instructions"⟩]

end Machine

end Subleq
