import Mathlib
import Subleq.Proofs.Placement
import Subleq.Proofs.Steps

/-!
# Subleq.Proofs.Convention — the constants between statements

The cell `Layout.zero` collects negated values inside a statement, and `Layout.negOne` is read all
over the place; both have to hold their constants again whenever a statement begins. Each expansion
sees to it on its own. What they share is said cell by cell (`Code.KeepsConstants`): no cell
subtracts from the constant -1, and a cell that leaves something in the zero cell is followed by
cells of the same statement up to one that clears it.

The invariant is `Machine.Conventional`: the constant -1 is in its cell, and the zero cell holds
zero unless the machine is at one of the cells where a statement is collecting (`Operation.Collects`).
Nothing is assumed of branches, which may lead into the middle of a statement.
-/

namespace Subleq

open Layout

/-! ## Cell by cell -/

/-- The operation is about to execute its cell of a number while the zero cell may hold something
else. -/
def Operation.Collects : Operation Int → Int → Prop
  | .jumpVia _, i => 1 ≤ i ∧ i < 4
  | .move .., i => 2 ≤ i ∧ i < 4
  | .arith .add .., i => 1 ≤ i ∧ i < 5
  | _, _ => False

namespace Code

/-- The address that a piece of code writes the result of its operation to. -/
def dest? : Code → Option Int
  | operation op => op.dest?
  | _ => none

/-- The result does not go to one of the constants. -/
def SparesConstants (c : Code) : Prop := ∀ d ∈ c.dest?, d ≠ zero ∧ d ≠ negOne

/-- What a cell of an operation does to the constants: the constant -1 is never subtracted from,
and what is left in the zero cell is collected in the next cell or cleared. -/
def KeepsConstants (op : Operation Int) (first here : Int) : Cell → Prop
  | .load .. => False
  | .subleq a b next => b ≠ negOne ∧
    (b = zero → a = zero ∨ next = here + 1 ∧ op.Collects (here + 1 - first)) ∧
    (b ≠ zero → op.Collects (here - first) → next = here + 1 ∧ op.Collects (here + 1 - first))

theorem each_keepsConstants {op : Operation Int} (hdest : (operation op).SparesConstants) (o : Int) :
    EachCell (KeepsConstants op o) o ((operation op).cells o) := by
  -- from the cells of each operation; a destination among them is one that spares the constants
  cases op with
  | jump target => simp [cells_jump, EachCell, KeepsConstants, zero, negOne]
  | jumpVia a =>
    rw [cells_jumpVia]
    simp [EachCell, straight, KeepsConstants, Operation.Collects, zero, negOne, tempA]
    omega
  | move a b =>
    have hb := hdest b rfl
    rw [cells_move]
    simp [EachCell, straight, KeepsConstants, Operation.Collects, zero, negOne] at hb ⊢
    omega
  | arith op a b c =>
    have hc := hdest c rfl
    cases op with
    | add =>
      rw [cells_add]
      simp [EachCell, straight, KeepsConstants, Operation.Collects, zero, negOne] at hc ⊢
      omega
    | sub =>
      rw [cells_sub]
      simp [EachCell, straight, KeepsConstants, Operation.Collects, zero, negOne, tempA,
        tempB] at hc ⊢
      omega
    | mul =>
      rw [cells_mul]
      simp [EachCell, straight, KeepsConstants, Operation.Collects, zero, negOne, tempA, tempB,
        tempC] at hc ⊢
      omega
    | div =>
      rw [cells_div]
      simp [EachCell, straight, KeepsConstants, Operation.Collects, zero, negOne, tempA, tempB,
        tempC] at hc ⊢
      omega
  | branch cond a b target =>
    rw [cells_branch]
    simp [EachCell, straight, KeepsConstants, Operation.Collects, zero, negOne, tempA, tempB,
      tempC]

end Code

theorem Operation.Collects.lt {op : Operation Int} {i : Int} (h : op.Collects i) :
    1 ≤ i ∧ i < (Code.operation op).size := by
  rw [Code.size_operation]
  cases op with
  | jumpVia a | move a b =>
    simp only [Collects] at h
    push_cast
    omega
  | arith op =>
    cases op <;> simp only [Collects] at h
    push_cast
    omega
  | jump _ | branch _ _ _ _ => cases h

/-! ## The invariant -/

namespace Session

variable {s : Session}

/-- No operation of the program has a constant as its destination. -/
def SparesConstants (s : Session) : Prop := ∀ p ∈ s.listing, p.code.SparesConstants

instance (s : Session) : Decidable s.SparesConstants :=
  inferInstanceAs (Decidable (∀ p ∈ s.listing, ∀ d ∈ p.code.dest?, d ≠ zero ∧ d ≠ negOne))

/-- What a subtraction of the program does to the constants. -/
theorem Sound.keepsConstants (h : s.Sound) (hspares : s.SparesConstants) {p : Placement}
    (hp : p ∈ s.listing) {op : Operation Int} (hop : p.code = .operation op) {x : Int}
    (hle : p.start ≤ x) (hlt : x < p.start + p.code.size) :
    Code.KeepsConstants op p.start x (s.program.fetch x) :=
  h.at_of_each hp (hop ▸ Code.each_keepsConstants (hop ▸ hspares p hp) p.start) hle hlt

end Session

namespace Machine

variable {s : Session} {m : Machine}

/-- The machine is at a cell in which a statement collects. -/
def Collecting (s : Session) (m : Machine) : Prop :=
  ∃ p ∈ s.listing, ∃ op, p.code = .operation op ∧ op.Collects (m.pc - p.start)

/-- The constants are in their cells; but for the zero, where a statement is collecting. -/
structure Conventional (s : Session) (m : Machine) : Prop where
  wired : m.memory.Wired
  program : m.program = s.program
  negOne : m.memory.cells[negOne]? = some (-1)
  zero : m.memory.cells[zero]? = some 0 ∨ m.Collecting s

/-- Where a statement collects there is one of its own cells. -/
theorem Collecting.keepsConstants (hs : s.Sound) (hspares : s.SparesConstants)
    (hprogram : m.program = s.program) (h : m.Collecting s) :
    ∃ p ∈ s.listing, ∃ op, p.code = .operation op ∧ op.Collects (m.pc - p.start) ∧
      0 ≤ m.pc ∧ Code.KeepsConstants op p.start m.pc (m.fetch m.pc) := by
  rcases h with ⟨p, hp, op, hop, hcollects⟩
  have hlt := hcollects.lt
  have hstart := (hs.tiles.mem hp).1
  rw [← hop] at hlt
  refine ⟨p, hp, op, hop, hcollects, by omega, ?_⟩
  rw [fetch, hprogram]
  exact hs.keepsConstants hspares hp hop (by omega) (by omega)

/-- A load leaves the constants where they are. -/
theorem Conventional.after_load (hs : s.Sound) (hspares : s.SparesConstants)
    (h : m.Conventional s) {v d next : Int} (hcell : m.fetch m.pc = .load v d next) :
    (m.memory.write d v).cells[Layout.negOne]? = some (-1) ∧
      (m.memory.write d v).cells[Layout.zero]? = some 0 := by
  have hzero : m.memory.cells[Layout.zero]? = some 0 := by
    rcases h.zero with hzero | hcollecting
    · exact hzero
    · -- there is no load where a statement collects
      rcases hcollecting.keepsConstants hs hspares h.program with ⟨p, _, op, _, _, _, hkeeps⟩
      rw [hcell] at hkeeps
      cases hkeeps
  rw [fetch, h.program] at hcell
  rcases hs.fetch_load hcell with ⟨p, hp, hcode, hle, hlt⟩
  rcases hs.at_of_each hp (Code.each_load hcode p.start) hle hlt with ⟨v', d', hload, hd⟩
  rw [hcell] at hload
  cases hload
  have hcellOf : Memory.cellOf d = d := by
    unfold Memory.cellOf
    rcases hd with ⟨hle, hle', _⟩ | hdef
    · simp only [Layout.zero, Layout.negOne] at hle hle'
      omega
    · rcases (hs.define_mem hp hdef).2 with ⟨w, hw, rfl⟩
      have hw := hs.standard.variable_mem hw
      simp only [Layout.zero] at hw
      omega
  rw [Memory.get?_write h.wired, Memory.get?_write h.wired, hcellOf, h.negOne, hzero]
  rcases hd with ⟨_, _, rfl⟩ | hdef
  · -- in the preamble, the cell of -1 gets -1 and all others get zero
    constructor
    · split
      · next heq => simp [← heq.2]
      · rfl
    · split
      · next heq =>
        rw [← heq.2]
        rfl
      · rfl
  · rcases (hs.define_mem hp hdef).2 with ⟨w, hw, rfl⟩
    have hw := hs.standard.variable_mem hw
    have hne : Layout.negOne ≠ w.address ∧ Layout.zero ≠ w.address := by
      simp only [Layout.zero, Layout.negOne] at hw ⊢
      omega
    simp [hne.1, hne.2]

/-- A subtraction leaves the constant -1 where it is; and if the zero cell holds something else
after it, its statement is collecting. -/
theorem Conventional.after_subtract (hs : s.Sound) (hspares : s.SparesConstants)
    (h : m.Conventional s) {a b target x y : Int} (hcell : m.fetch m.pc = .subleq a b target)
    (hne : Cell.subleq a b target ≠ .empty) (hx : m.memory.Reads a x) (hy : m.memory.Reads b y) :
    (m.memory.write b (Byte.fold (y - x))).cells[Layout.negOne]? = some (-1) ∧
      ((m.memory.write b (Byte.fold (y - x))).cells[Layout.zero]? = some 0 ∨
        target = m.pc + 1 ∧
          ∃ p ∈ s.listing, ∃ op, p.code = .operation op ∧ op.Collects (m.pc + 1 - p.start)) := by
  have hfetch : s.program.fetch m.pc = .subleq a b target := h.program ▸ hcell
  rcases hs.fetch_subleq hfetch hne with ⟨p, hp, op, hop, hle, hlt⟩
  have htouches := hs.at_of_each hp (hop ▸ Code.each_operation op p.start) hle hlt
  have hkeeps := hs.keepsConstants hspares hp hop hle hlt
  rw [hfetch] at htouches hkeeps
  have hcellOf : Memory.cellOf b = b := by
    have hb := hs.touched_mem hp hop htouches.2.1
    exact Memory.cellOf_eq hb.1 (by omega)
  rcases hkeeps with ⟨hnegOne, hcollect, _⟩
  rw [Memory.get?_write h.wired, Memory.get?_write h.wired, hcellOf]
  refine ⟨by simp [Ne.symm hnegOne, h.negOne], ?_⟩
  by_cases hb : b = Layout.zero
  · subst hb
    rcases hcollect rfl with rfl | ⟨hnext, hcollects⟩
    · -- the zero cell is subtracted from itself
      have hport : Memory.cellOf Layout.zero ≠ m.memory.portAddress := by
        rw [h.wired.port]
        decide
      have hsame : x = y := Option.some.inj ((hx hport).symm.trans (hy hport))
      left
      rw [hsame, Int.sub_self, if_pos (by decide)]
      rfl
    · exact Or.inr ⟨hnext, p, hp, op, hop, hcollects⟩
  · rw [if_neg fun heq => hb heq.2.symm]
    rcases h.zero with hzero | hcollecting
    · exact Or.inl hzero
    · rcases hcollecting.keepsConstants hs hspares h.program with
        ⟨q, hq, op', hop', hcollects, _, hkeeps⟩
      rw [hcell] at hkeeps
      rcases hkeeps.2.2 hb hcollects with ⟨hnext, hcollects'⟩
      exact Or.inr ⟨hnext, q, hq, op', hop', hcollects'⟩

theorem Conventional.step (hs : s.Sound) (hspares : s.SparesConstants) (h : m.Conventional s) :
    m.step.2.Conventional s := by
  have heffect := effect_step h.wired
  have hwired := wired_step h.wired
  have hprogram := (program_step m).trans h.program
  cases heffect with
  | halt _ _ hpc' hcells | fault _ _ _ _ _ hpc' hcells =>
    refine ⟨hwired, hprogram, by rw [hcells]; exact h.negOne, ?_⟩
    unfold Collecting
    rw [hcells, hpc']
    exact h.zero
  | pass hpc hcell _ hpc' hcells =>
    refine ⟨hwired, hprogram, by rw [hcells]; exact h.negOne, Or.inl ?_⟩
    rw [hcells]
    rcases h.zero with hzero | hcollecting
    · exact hzero
    · -- an empty cell is not among those of a statement
      rcases hcollecting.keepsConstants hs hspares h.program with
        ⟨p, hp, op, hop, hcollects, hpos, hkeeps⟩
      rw [hcell] at hkeeps
      have hnext := (hkeeps.2.2 (by decide) hcollects).1
      omega
  | load hpc hcell _ hpc' hcells =>
    rcases h.after_load hs hspares hcell with ⟨hnegOne, hzero⟩
    refine ⟨hwired, hprogram, ?_, Or.inl ?_⟩
    · rw [hcells]
      exact hnegOne
    · rw [hcells]
      exact hzero
  | subtract hpc hcell hne hx hy _ hpc' hcells =>
    rcases h.after_subtract hs hspares hcell hne hx hy with ⟨hnegOne, hzero⟩
    refine ⟨hwired, hprogram, ?_, ?_⟩
    · rw [hcells]
      exact hnegOne
    · rcases hzero with hzero | ⟨rfl, hcollecting⟩
      · left
        rw [hcells]
        exact hzero
      · right
        unfold Collecting
        rw [hpc', ite_self]
        exact hcollecting

/-! ## From the start -/

/-- The values that the preamble stores, and where. -/
def preambleLoads : List (Int × Int) :=
  [(0, Layout.zero), (-1, Layout.negOne), (0, tempA), (0, tempB), (0, tempC)]

/-- The first five steps of a compiled program store the constants and clear the scratch cells. -/
theorem runs_preamble (hs : s.Sound) (input : Input) (output : String) :
    ∃ m, Runs 5 (ofProgram s.program input output).reset m ∧ m.pc = 5 ∧ m.memory.Wired ∧
      m.program = s.program ∧ ∀ a, m.memory.cells[a]? =
        if a = Layout.negOne then some (-1)
        else if Layout.zero ≤ a ∧ a < Layout.negOne then some 0 else none := by
  have hcells : ∀ (i : Nat) c, (Code.preamble.cells 0)[i]? = some c →
      s.program.fetch (0 + i) = c := fun i c hi => hs.fetch hs.preamble_mem hi
  rw [Code.cells_preamble] at hcells
  have hroom : (ofProgram s.program input output).reset.pc + (preambleLoads.length : Int) <
      maxPc := by
    change (0 : Int) + 5 < 256
    omega
  have hloads : ∀ (i : Nat) v d, preambleLoads[i]? = some (v, d) →
      (ofProgram s.program input output).reset.fetch
        ((ofProgram s.program input output).reset.pc + i) =
      .load v d ((ofProgram s.program input output).reset.pc + i + 1) := by
    intro i v d hi
    apply hcells
    have hlt := (List.getElem?_eq_some_iff.mp hi).1
    simp only [preambleLoads, List.length_cons, List.length_nil] at hlt
    interval_cases i <;> cases hi <;> rfl
  rcases runs_loads preambleLoads hroom hloads with ⟨m, hruns, hpc, hmemory, hprogram⟩
  -- none of the five is the port's, so each write goes into a cell
  have hwired := wired_reset s.program input output
  have hwired₁ := hwired.write Layout.zero 0
  have hwired₂ := hwired₁.write Layout.negOne (-1)
  have hwired₃ := hwired₂.write tempA 0
  have hwired₄ := hwired₃.write tempB 0
  refine ⟨m, hruns, hpc, hmemory ▸ hwired₄.write tempC 0, hprogram, fun a => ?_⟩
  have hnone : (ofProgram s.program input output).reset.memory.cells[a]? = none := by
    change (∅ : AddressMap Int)[a]? = none
    simp
  simp only [hmemory, preambleLoads, List.foldl_cons, List.foldl_nil]
  rw [Memory.get?_write hwired₄, Memory.get?_write hwired₃, Memory.get?_write hwired₂,
    Memory.get?_write hwired₁, Memory.get?_write hwired, hnone]
  simp only [Memory.cellOf, Layout.zero, Layout.negOne, tempA, tempB, tempC, ioPort]
  grind

/-- The convention holds after the preamble and ever after. -/
theorem conventional_after (hs : s.Sound) (hspares : s.SparesConstants) (input : Input)
    (output : String) {n : Nat} (hn : 5 ≤ n) :
    ((ofProgram s.program input output).reset.after n).Conventional s := by
  rcases runs_preamble hs input output with ⟨m, hruns, hpc, hwired, hprogram, hcells⟩
  have hm : m.Conventional s := by
    refine ⟨hwired, hprogram, ?_, Or.inl ?_⟩
    · rw [hcells]
      rfl
    · rw [hcells]
      rfl
  have hsplit : (ofProgram s.program input output).reset.after n = m.after (n - 5) := by
    rw [hruns.eq_after, ← after_add]
    congr 1
    omega
  rw [hsplit]
  exact after_induction (I := fun m => m.Conventional s) hm (fun _ h => h.step hs hspares) _

/-- No cell in which a statement collects is the first one of a placement, or past the last one. -/
theorem Collecting.not_start (hs : s.Sound) (h : m.Collecting s) :
    (∀ p ∈ s.listing, m.pc ≠ p.start) ∧ m.pc < s.pc := by
  rcases h with ⟨q, hq, op, hop, hcollects⟩
  have hlt := hcollects.lt
  rw [← hop] at hlt
  have hmem := hs.tiles.mem hq
  refine ⟨fun p hp heq => ?_, by omega⟩
  have hsame := (hs.tiles.unique (i := 0) (j := (m.pc - q.start).toNat) hp hq p.code.size_pos
    (by omega) (by omega)).2
  omega

/-- In a program that writes to neither constant, -1 is in its cell in every state after the
preamble, and 0 is in its cell whenever a statement begins and when the code has been left. This
holds whatever comes through the port and wherever branches lead. -/
theorem constants_kept {source : String} {s : Session}
    (hcompile : Session.compile {} source = (s, none)) (hspares : s.SparesConstants)
    (input : Input) (output : String) (n : Nat) (hn : 5 ≤ n) :
    ((ofProgram s.program input output).reset.after n).memory.get? Layout.negOne = some (-1) ∧
      (((∃ p ∈ s.listing, ((ofProgram s.program input output).reset.after n).pc = p.start) ∨
          s.pc ≤ ((ofProgram s.program input output).reset.after n).pc) →
        ((ofProgram s.program input output).reset.after n).memory.get? Layout.zero = some 0) := by
  have hs := Session.sound_of_compile hcompile
  have hconv := conventional_after hs hspares input output hn
  refine ⟨hconv.negOne, fun hplace => ?_⟩
  rcases hconv.zero with hzero | hcollecting
  · exact hzero
  · exfalso
    rcases hcollecting.not_start hs with ⟨hstart, hlt⟩
    rcases hplace with ⟨p, hp, heq⟩ | hle
    · exact hstart p hp heq
    · omega

/-- A program that uses the constants, the scratch cells and the port as operands, and that begins
all over again. -/
def scribble : String :=
  "DEF a 5\nMOV 254 253\nADD 250 ioPort 251\nMUL a 252 ioPort\nIFGT a 251 0\nJMPI a"

theorem constants_kept_scribble :
    (Session.compile {} scribble).2 = none ∧ (Session.compile {} scribble).1.SparesConstants ∧
      ((ofProgram (Session.compile {} scribble).1.program (Input.ofScript [.ok 7])
        "out").reset.after 9).memory.get? Layout.negOne = some (-1) := by
  have hraised : (Session.compile {} scribble).2 = none := by decide +kernel
  have hspares : (Session.compile {} scribble).1.SparesConstants := by decide +kernel
  exact ⟨hraised, hspares, (constants_kept (Session.compile_eq hraised) hspares
    (Input.ofScript [.ok 7]) "out" 9 (by decide)).1⟩

end Machine

end Subleq
