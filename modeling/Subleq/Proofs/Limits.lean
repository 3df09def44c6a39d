import Mathlib
import Subleq.Proofs.Steps

/-!
# Subleq.Proofs.Limits — runs with a limit

A run makes step after step. It ends when the machine halts, when an instruction faults, or when
after a step the number of instructions executed has come up to the limit, if there is one. `Ends`
is this loop, one rule for each way it can go on, and `Passes` says that the loop comes by a machine.
`Machine.run` passes by empty cells at once and counts the instructions that are left; it comes to
what the loop comes to (`ends_run`), with any limit.

From this follows how runs of one machine with different limits hang together (`run_of_longer`): one
that stops at its limit has come by a state that all longer runs come by, and one that ends otherwise
is the end of all longer runs. No run executes more instructions than its limit, but for a limit of
zero, which is looked at only after the first step (`within_limit`, `not_always_within`).
-/

namespace Subleq

/-- Passing by empty cells ends at a cell that is not empty, if not at the end. -/
theorem Program.skipEmpty_cases (p : Program) (room : Nat) (pc : Int) :
    p.fetch (p.skipEmpty room pc) ≠ .empty ∨ p.skipEmpty room pc = pc + room := by
  induction room generalizing pc with
  | zero => exact .inr (by simp [skipEmpty])
  | succ room ih =>
    unfold skipEmpty
    split
    · rcases ih (pc + 1) with hne | hend
      · exact .inl hne
      · right
        rw [hend]
        push_cast
        omega
    · next hne => exact .inl fun hempty => hne (Cell.isEmpty_iff.mpr hempty)

namespace Machine

variable {m m' m₁ m₂ : Machine} {limit limit' : Option Int} {n : Int}
  {r r' : Except Fault StopReason × Machine}

/-! ## The loop -/

/-- The machine has executed as many instructions as the limit allows, if there is a limit. -/
def AtLimit (limit : Option Int) (m : Machine) : Prop := ∃ n ∈ limit, n ≤ m.steps

/-- A run from a machine comes by another one: so many steps do not stop the machine, and none of
them brings it up to the limit. -/
inductive Passes (limit : Option Int) : Machine → Machine → Prop where
  | refl (m : Machine) : Passes limit m m
  | step {m m₁ m₂ : Machine} (first : m.step = (.running, m₁)) (below : ¬m₁.AtLimit limit)
      (rest : Passes limit m₁ m₂) : Passes limit m m₂

/-- How a run from a machine ends. -/
inductive Ends (limit : Option Int) : Machine → Except Fault StopReason × Machine → Prop where
  /-- The machine has left the program store. -/
  | halt {m m' : Machine} (last : m.step = (.halted, m')) : Ends limit m (.ok .halt, m')
  /-- An instruction cannot be executed. -/
  | fault {m m' : Machine} {cause : Fault} (last : m.step = (.faulted cause, m')) :
      Ends limit m (.error cause, m')
  /-- The limit is reached. -/
  | stepLimit {m m' : Machine} (last : m.step = (.running, m')) (reached : m'.AtLimit limit) :
      Ends limit m (.ok .stepLimit, m')
  /-- Otherwise the run goes on. -/
  | step {m m₁ : Machine} {r : Except Fault StopReason × Machine}
      (first : m.step = (.running, m₁)) (below : ¬m₁.AtLimit limit) (rest : Ends limit m₁ r) :
      Ends limit m r

@[simp] theorem atLimit_some : m.AtLimit (some n) ↔ n ≤ m.steps := by
  simp [AtLimit]

/-- A run ends as it would have ended from a machine that it comes by. -/
theorem Passes.ends (h : Passes limit m m₁) (hends : m₁.Ends limit r) : m.Ends limit r := by
  induction h with
  | refl m => exact hends
  | step first below rest ih => exact .step first below (ih hends)

/-- A run ends in one way only. -/
theorem Ends.unique (h : m.Ends limit r) (h' : m.Ends limit r') : r = r' := by
  -- the step that is made decides which rule can have been used for the other end
  induction h with
  | halt last =>
    cases h' <;> simp_all
  | fault last =>
    cases h' <;> simp_all
  | stepLimit last reached =>
    cases h' <;> simp_all
  | step first below rest ih =>
    cases h' with
    | halt last => simp_all
    | fault last => simp_all
    | stepLimit last reached => simp_all
    | step first' below' rest' =>
      have hsame := first.symm.trans first'
      cases hsame
      exact ih rest'

/-- The rest of a run is a run. -/
theorem Passes.ends_iff (h : Passes limit m m₁) : m.Ends limit r ↔ m₁.Ends limit r := by
  refine ⟨fun hends => ?_, h.ends⟩
  induction h with
  | refl m => exact hends
  | step first below rest ih =>
    apply ih
    cases hends with
    | halt last => simp_all
    | fault last => simp_all
    | stepLimit last reached => simp_all
    | step first' below' rest' =>
      have hsame := first.symm.trans first'
      cases hsame
      exact rest'

/-! ## Runs as loops -/

/-- Steps that execute no instruction do not bring a run up to its limit. -/
theorem Runs.passes {k : Nat} (h : Runs k m m') (hsteps : m'.steps = m.steps)
    (hbelow : ¬m.AtLimit limit) : Passes limit m m' := by
  induction h with
  | refl m => exact .refl m
  | @step k m m₁ m₂ first rest ih =>
    have hfirst := (Runs.one first).steps_le
    have hrest := rest.steps_le
    have hsame : m₁.steps = m.steps := by omega
    have hbelow₁ : ¬m₁.AtLimit limit := by
      unfold AtLimit at hbelow ⊢
      rw [hsame]
      exact hbelow
    exact .step first hbelow₁ (ih (by omega) hbelow₁)

/-- The instruction after some empty cells is executed. -/
theorem steps_skipEmpty (h : m.skipEmpty.step = (.running, m')) : m'.steps = m.steps + 1 := by
  have hpc : m.skipEmpty.pc < maxPc := by
    by_contra hout
    rw [step_of_halted (Int.not_lt.mp hout)] at h
    cases h
  have hcell : m.skipEmpty.fetch m.skipEmpty.pc ≠ .empty := by
    rcases m.program.skipEmpty_cases (maxPc - m.pc).toNat m.pc with hne | hend
    · exact hne
    · -- there were empty cells up to the end of the store
      have hpc' : m.skipEmpty.pc = m.pc + (maxPc - m.pc).toNat := hend
      rcases Int.lt_or_le m.pc maxPc with hlt | hle
      · omega
      · omega
  have hsteps := steps_step (m := m.skipEmpty) (by rw [h]) hcell
  rw [h] at hsteps
  exact hsteps

/-- The first instruction of a run that counts down those that are left. -/
theorem ends_runFor_succ {k : Nat} (hbelow : ¬m.AtLimit limit)
    (hrest : ∀ m' : Machine, m'.steps = m.steps + 1 →
      k = 0 ∧ m'.AtLimit limit ∨ ¬m'.AtLimit limit ∧ m'.Ends limit (runFor k m')) :
    m.Ends limit (runFor (k + 1) m) := by
  rcases step_skipEmpty m with ⟨j, m₀, hruns, hsteps, hsame, -⟩
  have hpasses := hruns.passes hsteps hbelow
  rw [runFor_succ]
  cases hstep : m.skipEmpty.step with
  | mk outcome m' =>
    rw [hstep] at hsame
    cases outcome with
    | halted => exact hpasses.ends (.halt hsame.symm)
    | faulted cause => exact hpasses.ends (.fault hsame.symm)
    | running =>
      rcases hrest m' (steps_skipEmpty hstep) with ⟨rfl, hreached⟩ | ⟨hbelow', hends⟩
      · exact hpasses.ends (.stepLimit hsame.symm hreached)
      · exact hpasses.ends (.step hsame.symm hbelow' hends)

/-- Counting down the instructions that are left comes to the same as counting up to the limit. -/
theorem ends_runFor (k : Nat) (m : Machine) :
    m.Ends (some (m.steps + (k + 1 : Nat))) (runFor (k + 1) m) := by
  induction k generalizing m with
  | zero =>
    apply ends_runFor_succ
    · rw [atLimit_some]
      omega
    · intro m' hsteps
      refine .inl ⟨rfl, ?_⟩
      rw [atLimit_some, hsteps]
      push_cast
      omega
  | succ k ih =>
    apply ends_runFor_succ
    · rw [atLimit_some]
      omega
    · intro m' hsteps
      have hsum : (m'.steps : Int) + (k + 1 : Nat) = m.steps + (k + 1 + 1 : Nat) := by
        rw [hsteps]
        push_cast
        omega
      refine .inr ⟨?_, hsum ▸ ih m'⟩
      rw [atLimit_some, hsteps]
      push_cast
      omega

/-- What a run with any limit comes to is what the loop comes to. -/
theorem ends_run (m : Machine) (n : Int) : m.reset.Ends (some n) (m.run n) := by
  unfold run
  split
  · next hpos =>
    obtain ⟨k, hk⟩ : ∃ k, n.toNat = k + 1 := ⟨n.toNat - 1, by omega⟩
    have hlimit : (m.reset.steps : Int) + (k + 1 : Nat) = n := by
      have hzero : m.reset.steps = 0 := rfl
      rw [hzero]
      omega
    rw [hk]
    exact hlimit ▸ ends_runFor k m.reset
  · rw [runOnce_eq]
    cases hstep : m.reset.step with
    | mk outcome m' =>
      cases outcome with
      | halted => exact .halt hstep
      | faulted cause => exact .fault hstep
      | running =>
        -- whatever has been executed, it is no less than the limit
        refine .stepLimit hstep ?_
        rw [atLimit_some]
        omega

/-- A run that makes one step leaves what the step leaves, and it returns unless the step faults. -/
theorem runOnce_cases (m : Machine) : m.runOnce.2 = m.step.2 ∧
    (m.runOnce.1 = .ok .stepLimit ↔ m.step.1 = .running) ∧
    ∀ reason, m.runOnce.1 = .ok reason → ∀ cause, m.step.1 ≠ .faulted cause := by
  rw [runOnce_eq]
  cases hstep : m.step with
  | mk outcome m' => cases outcome <;> simp

/-! ## Runs with different limits -/

/-- A run that has not come up to its limit yet executes no more instructions than that, and exactly
as many if it stops there. -/
theorem Ends.steps_le (h : m.Ends (some n) r) (hbelow : (m.steps : Int) < n) :
    (r.2.steps : Int) ≤ n ∧ (r.1 = .ok .stepLimit → (r.2.steps : Int) = n) := by
  induction h with
  | @halt m m' last =>
    have hstep := m.steps_step_le.2.1
    rw [last] at hstep
    simp only at hstep ⊢
    exact ⟨by omega, by simp⟩
  | @fault m m' cause last =>
    have hstep := m.steps_step_le.2.1
    rw [last] at hstep
    simp only at hstep ⊢
    exact ⟨by omega, by simp⟩
  | @stepLimit m m' last reached =>
    have hstep := m.steps_step_le.2.1
    rw [last] at hstep
    rw [atLimit_some] at reached
    simp only at hstep ⊢
    exact ⟨by omega, fun _ => by omega⟩
  | step first below rest ih =>
    apply ih
    rw [atLimit_some] at below
    omega

/-- A run with a higher limit, or without one, comes by where a run stops at its limit. -/
theorem Ends.passes (h : m.Ends (some n) r) (hbelow : (m.steps : Int) < n)
    (hstop : r.1 = .ok .stepLimit) (hlimit : ∀ k ∈ limit, n < k) : Passes limit m r.2 := by
  -- a machine with no more instructions than the lower limit is not at the higher one
  have hhigher : ∀ m₁ : Machine, (m₁.steps : Int) ≤ n → ¬m₁.AtLimit limit := by
    rintro m₁ hle ⟨k, hk, hreached⟩
    have hlt := hlimit k hk
    omega
  induction h with
  | halt last => simp at hstop
  | fault last => simp at hstop
  | @stepLimit m m' last reached =>
    have hstep := m.steps_step_le.2.1
    rw [last] at hstep
    simp only at hstep
    exact .step last (hhigher m' (by omega)) (.refl m')
  | step first below rest ih =>
    rw [atLimit_some] at below
    exact .step first (hhigher _ (by omega)) (ih (by omega) hstop)

/-- A run that does not stop at its limit ends in the same way with a higher limit, or without
one. -/
theorem Ends.mono (h : m.Ends (some n) r) (hends : r.1 ≠ .ok .stepLimit)
    (hlimit : ∀ k ∈ limit, n ≤ k) : m.Ends limit r := by
  induction h with
  | halt last => exact .halt last
  | fault last => exact .fault last
  | stepLimit last reached => exact absurd rfl hends
  | step first below rest ih =>
    refine .step first ?_ (ih hends)
    rintro ⟨k, hk, hreached⟩
    have hle := hlimit k hk
    rw [atLimit_some] at below
    omega

/-! ## Results -/

/-- A run with a limit of at least one instruction executes no more than that, and exactly as many if
it stops at the limit. A lower limit stops a run after its first step, by which one instruction has
been executed if there is one in the first cell. -/
theorem within_limit (m : Machine) (n : Int) :
    (1 ≤ n → ((m.run n).2.steps : Int) ≤ n ∧
      ((m.run n).1 = .ok .stepLimit → ((m.run n).2.steps : Int) = n)) ∧
    (n ≤ 0 → (m.run n).2 = m.reset.step.2 ∧
      ((m.run n).1 = .ok .stepLimit ↔ m.reset.step.1 = .running) ∧
      ∀ reason, (m.run n).1 = .ok reason →
        (m.run n).2.steps = if m.fetch 0 = .empty then 0 else 1) := by
  have hzero : m.reset.steps = 0 := rfl
  constructor
  · intro hpos
    exact (ends_run m n).steps_le (by omega)
  · intro hneg
    have hrun : m.run n = m.reset.runOnce := if_neg (by omega)
    rcases m.reset.runOnce_cases with ⟨hleft, hstop, hdone⟩
    rw [hrun]
    refine ⟨hleft, hstop, ?_⟩
    intro reason hreason
    rw [hleft]
    have hfirst : m.reset.pc < maxPc := show (0 : Int) < 256 by decide
    have hcell : m.reset.fetch m.reset.pc = m.fetch 0 := rfl
    by_cases hempty : m.fetch 0 = .empty
    · rw [if_pos hempty]
      exact steps_pass fun _ => hcell.trans hempty
    · rw [if_neg hempty]
      rcases steps_execute hfirst (hcell ▸ hempty) with ⟨-, hsteps⟩ | ⟨cause, hfault, -⟩
      · exact hsteps
      · exact absurd hfault (hdone reason hreason cause)

/-- After its first instruction this program stays where it is. -/
def spinning : Machine :=
  ofProgram (AddressMap.ofEntries [(0, .load 0 1 1), (1, .subleq 1 1 1)]) (Input.ofScript []) "out"

theorem within_limit_spinning :
    (spinning.run 50).1 = .ok .stepLimit ∧ (spinning.run 50).2.steps = 50 ∧
      (spinning.run 0).1 = .ok .stepLimit ∧ (spinning.run 0).2.steps = 1 := by
  have hstop : (spinning.run 50).1 = .ok .stepLimit := by decide +kernel
  have hstop' : (spinning.run 0).1 = .ok .stepLimit := by decide +kernel
  have hsteps := ((within_limit spinning 50).1 (by decide)).2 hstop
  have hsteps' := ((within_limit spinning 0).2 (by decide)).2.2 .stepLimit hstop'
  exact ⟨hstop, by exact_mod_cast hsteps, hstop', hsteps'⟩

/-- A limit of zero is no limit: an instruction is executed before it is looked at. -/
theorem not_always_within : ¬∀ (m : Machine) (n : Int), 0 ≤ n → ∀ reason m',
    m.run n = (.ok reason, m') →
    (m'.steps : Int) ≤ n ∧ (reason = .stepLimit → (m'.steps : Int) = n) := by
  intro hall
  have hstop : (spinning.run 0).1 = .ok .stepLimit := by decide +kernel
  have hsteps : (spinning.run 0).2.steps = 1 := by decide +kernel
  have hle := (hall spinning 0 (by decide) .stepLimit (spinning.run 0).2 (Prod.ext hstop rfl)).1
  rw [hsteps] at hle
  exact absurd hle (by decide)

/-- A run with a limit of at least one instruction ends, and in one way only. If it stops at the
limit, it has executed exactly as many instructions, and all runs with a higher limit or without one
come by the machine that it leaves and go on from there. If it halts or faults, so do all runs with a
higher limit, and the run without a limit, and they leave the same machine. -/
theorem run_of_longer (m : Machine) {n : Int} (hn : 1 ≤ n) :
    (∀ r, m.reset.Ends (some n) r ↔ r = m.run n) ∧
    ((m.run n).1 = .ok .stepLimit → ((m.run n).2.steps : Int) = n ∧
      (∀ limit : Option Int, (∀ k ∈ limit, n < k) → Passes limit m.reset (m.run n).2) ∧
      ∀ k, n < k → (m.run n).2.Ends (some k) (m.run k)) ∧
    ((m.run n).1 ≠ .ok .stepLimit → (∀ k, n < k → m.run k = m.run n) ∧
      ∀ r, m.reset.Ends none r ↔ r = m.run n) := by
  have hends := ends_run m n
  have hbelow : (m.reset.steps : Int) < n := by
    have hzero : m.reset.steps = 0 := rfl
    omega
  refine ⟨fun r => ⟨fun h => h.unique hends, fun h => h ▸ hends⟩, fun hstop => ?_, fun hend => ?_⟩
  · refine ⟨(hends.steps_le hbelow).2 hstop, fun limit => hends.passes hbelow hstop, ?_⟩
    intro k hk
    have hpasses : Passes (some k) m.reset (m.run n).2 :=
      hends.passes hbelow hstop (by simpa using hk)
    exact hpasses.ends_iff.mp (ends_run m k)
  · constructor
    · intro k hk
      have hlonger : m.reset.Ends (some k) (m.run n) :=
        hends.mono hend (by simpa using Int.le_of_lt hk)
      exact (ends_run m k).unique hlonger
    · have hnone : m.reset.Ends none (m.run n) := hends.mono hend (by simp)
      exact fun r => ⟨fun h => h.unique hnone, fun h => h ▸ hnone⟩

/-- A program that goes on below its first cell, takes a number from the port there, and leaves the
store by empty cells. -/
def underground : Machine :=
  ofProgram (AddressMap.ofEntries [(0, .load 3 10 (-2)), (-2, .subleq 255 10 250)])
    (Input.ofScript [.ok 5]) "out"

theorem run_of_longer_underground :
    (underground.run 1).1 = .ok .stepLimit ∧ (underground.run 1).2.pc = -2 ∧
      Passes none underground.reset (underground.run 1).2 ∧
      (underground.run 1).2.Ends (some 3) (underground.run 3) ∧
      (underground.run 3).1 = .ok .halt ∧ underground.run 1000 = underground.run 3 ∧
      underground.reset.Ends none (underground.run 3) := by
  have hstop : (underground.run 1).1 = .ok .stepLimit := by decide +kernel
  have hpc : (underground.run 1).2.pc = -2 := by decide +kernel
  have hend : (underground.run 3).1 = .ok .halt := by decide +kernel
  rcases (run_of_longer underground (n := 1) (by decide)).2.1 hstop with ⟨-, hpasses, hrest⟩
  rcases (run_of_longer underground (n := 3) (by decide)).2.2 (by simp [hend]) with ⟨hsame, hnone⟩
  exact ⟨hstop, hpc, hpasses none (by simp), hrest 3 (by decide), hend, hsame 1000 (by decide),
    (hnone _).mpr rfl⟩

end Machine

end Subleq
