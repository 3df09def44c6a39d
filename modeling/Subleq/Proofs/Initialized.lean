import Mathlib
import Subleq.Proofs.Placement
import Subleq.Proofs.Steps

/-!
# Subleq.Proofs.Initialized — no read of a cell that was never written

A program whose definitions come first and whose operands are names begins with loads of all cells
that its subtractions work with. A branch may lead anywhere, also into the middle of a statement,
so that the argument cannot follow the statements. What every step keeps is this (`Loading`): the
machine is still going through the loads from the first one on, or all of them are done; and a cell
that is stored stays stored.
-/

namespace Subleq

open Layout

/-! ## Programs that begin with loads -/

/-- The cell of the data store is loaded by a cell of the program before some address. -/
def Program.Loads (p : Program) (k a : Int) : Prop :=
  ∃ x v next, 0 ≤ x ∧ x < k ∧ p.fetch x = .load v a next

/-- The cells before an address are loads, one after the other, and the program subtracts nothing
but what they load and what comes through the port. -/
structure Program.Primed (p : Program) (k : Int) : Prop where
  bound : k ≤ Machine.maxPc
  load : ∀ x, 0 ≤ x → x < k →
    ∃ v a, p.fetch x = .load v a (x + 1) ∧ 0 ≤ a ∧ a < ioPort
  subtract : ∀ x a b target, p.fetch x = .subleq a b target → Cell.subleq a b target ≠ .empty →
    k ≤ x ∧ (a = ioPort ∨ p.Loads k a) ∧ (b = ioPort ∨ p.Loads k b)

namespace Machine

/-- All cells that are loaded before an address are stored. -/
def Stored (m : Machine) (k : Int) : Prop :=
  ∀ a, m.program.Loads k a → (m.memory.cells[a]?).isSome

/-- The machine is at one of the leading loads and has done those before it, or it has done them
all. -/
structure Loading (k : Int) (m : Machine) : Prop where
  wired : m.memory.Wired
  primed : m.program.Primed k
  stored : (0 ≤ m.pc ∧ m.pc < k ∧ m.Stored m.pc) ∨ m.Stored k

/-- What is stored stays stored, whatever a step does. -/
theorem Effect.isSome_get? {m m' : Machine} {outcome : StepOutcome} (h : m.Effect outcome m')
    (hw : m.memory.Wired) {a : Int} (ha : (m.memory.cells[a]?).isSome) :
    (m'.memory.cells[a]?).isSome := by
  cases h with
  | halt _ _ _ hcells | pass _ _ _ _ hcells | fault _ _ _ _ _ _ hcells =>
    rw [hcells]
    exact ha
  | load _ _ _ _ hcells | subtract _ _ _ _ _ _ _ hcells =>
    rw [hcells]
    exact Memory.isSome_write hw _ _ _ ha

theorem Loading.step {k : Int} {m : Machine} (h : m.Loading k) : m.step.2.Loading k := by
  have heffect := effect_step h.wired
  have hkeep : ∀ {j}, m.Stored j → m.step.2.Stored j := by
    intro j hstored a ha
    rw [program_step] at ha
    exact heffect.isSome_get? h.wired (hstored a ha)
  constructor
  case wired => exact wired_step h.wired
  case primed =>
    rw [program_step]
    exact h.primed
  case stored =>
    rcases h.stored with ⟨hpos, hlt, hstored⟩ | hstored
    swap
    · exact Or.inr (hkeep hstored)
    -- a leading load is executed, and the next address is reached
    rcases h.primed.load m.pc hpos hlt with ⟨v, d, hfetch, hd, hd'⟩
    have hpc : m.pc < maxPc := Int.lt_of_lt_of_le hlt h.primed.bound
    rcases step_load hpc hfetch with ⟨_, hpc', hmemory⟩
    have hnext : m.step.2.Stored (m.pc + 1) := by
      rintro a ⟨x, v', next, hx, hx', ha⟩
      rw [program_step] at ha
      by_cases hlast : x = m.pc
      · rw [hlast, hfetch] at ha
        cases ha
        have hcell : Memory.cellOf d = d := Memory.cellOf_eq hd (by simp only [ioPort] at hd'; omega)
        have hport : d ≠ ioPort := by omega
        rw [hmemory, Memory.get?_write h.wired, hcell]
        simp [hport]
      · exact heffect.isSome_get? h.wired (hstored a ⟨x, v', next, hx, by omega, ha⟩)
    by_cases hmore : m.pc + 1 < k
    · exact Or.inl ⟨by omega, by omega, hpc' ▸ hnext⟩
    · have hend : m.pc + 1 = k := by omega
      exact Or.inr (hend ▸ hnext)

/-- A step of such a machine reads nothing that is not stored. -/
theorem Loading.step_ne_uninitialized {k : Int} {m : Machine} (h : m.Loading k) (a pc : Int) :
    m.step.1 ≠ .faulted (.uninitialized a pc) := by
  intro hfault
  cases effect_step h.wired with
  | halt _ hend =>
    rw [hfault] at hend
    cases hend
  | pass _ _ hend | load _ _ hend | subtract _ _ _ _ _ hend =>
    exact goesOn_ne_faulted _ _ (hend.symm.trans hfault)
  | fault hpc hcell hne hend hcause _ _ =>
    have hcause := hcause a pc (StepOutcome.faulted.inj (hend.symm.trans hfault))
    rcases h.primed.subtract _ _ _ _ hcell hne with ⟨hle, ha, hb⟩
    rcases hcause with ⟨_, hoperand, hnone, hport⟩
    have hstored : m.Stored k := by
      rcases h.stored with ⟨_, hlt, _⟩ | hstored
      · omega
      · exact hstored
    -- the operand is the port or was loaded, and neither can be missing
    have hknown : ∀ b, (b = ioPort ∨ m.program.Loads k b) → a = Memory.cellOf b → False := by
      intro b hb hab
      rcases hb with rfl | hloads
      · exact hport hab
      · have hsome := hstored b hloads
        rcases hloads with ⟨x, v, next, hx, hx', hload⟩
        rcases h.primed.load x hx hx' with ⟨v', b', hload', hb, hb'⟩
        rw [hload] at hload'
        cases hload'
        have hcell : Memory.cellOf b = b := Memory.cellOf_eq hb (by simp only [ioPort] at hb'; omega)
        rw [hab, hcell] at hnone
        rw [hnone] at hsome
        cases hsome
    rcases hoperand with hoperand | hoperand
    · exact hknown _ ha hoperand
    · exact hknown _ hb hoperand

theorem loading_reset {p : Program} {k : Int} (hp : p.Primed k) (input : Input) (output : String) :
    (ofProgram p input output).reset.Loading k := by
  refine ⟨wired_reset p input output, hp, ?_⟩
  have hzero : (ofProgram p input output).reset.Stored 0 := by
    rintro a ⟨x, _, _, hx, hx', _⟩
    omega
  by_cases hk : 0 < k
  · exact Or.inl ⟨Int.le_refl 0, hk, hzero⟩
  · right
    rintro a ⟨x, _, _, hx, hx', _⟩
    omega

end Machine

/-! ## Compiled programs -/

namespace Session

variable {s : Session} {k : Int}

/-- What is loaded in a definition or in the preamble is loaded before all operations. -/
theorem Sound.loads (h : s.Sound) (hk : s.Boundary k) {p : Placement} (hp : p ∈ s.listing)
    (hcode : p.code.isOperation = false) {i : Nat} {v a next : Int}
    (hi : (p.code.cells p.start)[i]? = some (.load v a next)) : s.program.Loads k a := by
  have hstart := (h.tiles.mem hp).1
  have hend := (hk.2 p hp).1 hcode
  have hlt := (List.getElem?_eq_some_iff.mp hi).1
  rw [Code.length_cells] at hlt
  exact ⟨p.start + i, v, next, by omega, by omega, h.fetch hp hi⟩

theorem Sound.loads_reserved (h : s.Sound) (hk : s.Boundary k) {a : Int} (hzero : zero ≤ a)
    (hnegOne : a ≤ negOne) : s.program.Loads k a := by
  have hload : ∀ (i : Nat) v next, (Code.preamble.cells 0)[i]? = some (Cell.load v a next) →
      s.program.Loads k a := by
    intro i v next hi
    exact h.loads hk h.preamble_mem rfl hi
  have hcases : a = zero ∨ a = negOne ∨ a = tempA ∨ a = tempB ∨ a = tempC := by
    simp only [zero, negOne, tempA, tempB, tempC] at hzero hnegOne ⊢
    omega
  rw [Code.cells_preamble] at hload
  rcases hcases with rfl | rfl | rfl | rfl | rfl
  · exact hload 0 _ _ rfl
  · exact hload 1 _ _ rfl
  · exact hload 2 _ _ rfl
  · exact hload 3 _ _ rfl
  · exact hload 4 _ _ rfl

theorem Sound.loads_variable (h : s.Sound) (hk : s.Boundary k) {v : Variable}
    (hv : v ∈ s.symbols.variables) : s.program.Loads k v.address := by
  rcases h.defined v hv with ⟨p, hp, value, hcode⟩
  have hi : (p.code.cells p.start)[0]? = some (.load value v.address (p.start + 1)) := by
    rw [hcode, Code.cells_define]
    rfl
  exact h.loads hk hp (by rw [hcode]; rfl) hi

/-- The cells that an operation works with are loaded, if its data operands are names. -/
theorem Sound.loads_touched (h : s.Sound) (hk : s.Boundary k) (hnames : s.NamedData)
    {p : Placement} (hp : p ∈ s.listing) {op : Operation Int} (hop : p.code = .operation op)
    {a : Int} (ha : op.Touches a) : a = ioPort ∨ s.program.Loads k a := by
  rcases ha with ⟨hzero, hnegOne⟩ | hdata
  · exact Or.inr (h.loads_reserved hk hzero hnegOne)
  · rcases h.data_mem hp hop hdata with ⟨w, hw, hresolves⟩
    have hlookup := h.standard.lookup?_of_resolves (hnames p hp w hw) hresolves
    rcases SymbolTable.lookup?_cases hlookup with ⟨_, rfl⟩ | ⟨v, hv, _, rfl⟩
    · exact Or.inl rfl
    · exact Or.inr (h.loads_variable hk hv)

/-- A load outside of all operations writes to a cell, not to the port, and goes on at the next
address. -/
theorem Sound.load_mem (h : s.Sound) {p : Placement} (hp : p ∈ s.listing)
    (hcode : p.code.isOperation = false) {x : Int} (hle : p.start ≤ x)
    (hlt : x < p.start + p.code.size) :
    ∃ v a, s.program.fetch x = .load v a (x + 1) ∧ 0 ≤ a ∧ a < ioPort := by
  rcases h.at_of_each hp (Code.each_load hcode p.start) hle hlt with ⟨v, a, hload, ha⟩
  refine ⟨v, a, hload, ?_⟩
  rcases ha with ⟨hzero, hnegOne, _⟩ | hdef
  · simp only [zero, negOne, ioPort] at hzero hnegOne ⊢
    omega
  · rcases (h.define_mem hp hdef).2 with ⟨w, hw, rfl⟩
    have hw := h.standard.variable_mem hw
    simp only [zero, ioPort] at hw ⊢
    omega

/-- The definitions, in a program in which they all come first, load all cells that the rest of the
program names. -/
theorem Sound.primed (h : s.Sound) (hk : s.Boundary k) (hnames : s.NamedData) :
    s.program.Primed k := by
  constructor
  case bound =>
    have hroom := h.room
    have hle := hk.1
    simp only [programLimit] at hroom
    simp only [Machine.maxPc]
    omega
  case load =>
    intro x hx hlt
    have hle := hk.1
    rcases h.tiles.exists_mem hx (by omega) with ⟨p, hp, i, hi, rfl⟩
    cases hcode : p.code.isOperation with
    | true =>
      have hstart := (hk.2 p hp).2 hcode
      omega
    | false => exact h.load_mem hp hcode (by omega) (by omega)
  case subtract =>
    intro x a b target hfetch hne
    rcases h.fetch_subleq hfetch hne with ⟨p, hp, op, hop, hle, hlt⟩
    have hstart := (hk.2 p hp).2 (by rw [hop]; rfl)
    have hcell := h.at_of_each hp (hop ▸ Code.each_operation op p.start) hle hlt
    rw [hfetch] at hcell
    rcases hcell with ⟨ha, hb, _⟩
    exact ⟨by omega, h.loads_touched hk hnames hp hop ha, h.loads_touched hk hnames hp hop hb⟩

end Session

namespace Machine

/-- A program whose definitions all come first and whose data operands are all names never reads a
cell that was not written: not in any number of steps, nor in a run with any limit, whatever comes
through the port and wherever its branches lead. -/
theorem never_uninitialized {source : String} {s : Session}
    (hcompile : Session.compile {} source = (s, none)) (hlate : s.NoLateDefinition)
    (hnames : s.NamedData) (input : Input) (output : String) :
    (∀ n address pc, ((ofProgram s.program input output).reset.after n).step.1 ≠
      .faulted (.uninitialized address pc)) ∧
    ∀ limit address pc, ((ofProgram s.program input output).run limit).1 ≠
      .error (.uninitialized address pc) := by
  have hsound := Session.sound_of_compile hcompile
  rcases hsound.exists_boundary hlate with ⟨k, hk⟩
  have hprimed := hsound.primed hk hnames
  have hafter : ∀ n address pc, ((ofProgram s.program input output).reset.after n).step.1 ≠
      .faulted (.uninitialized address pc) := by
    intro n address pc
    have hloading : ((ofProgram s.program input output).reset.after n).Loading k :=
      after_induction (I := fun m => m.Loading k) (loading_reset hprimed input output)
        (fun _ h => h.step) n
    exact hloading.step_ne_uninitialized address pc
  refine ⟨hafter, fun limit address pc => ?_⟩
  rcases run_cases (ofProgram s.program input output) limit with ⟨_, _, _, _, _, heq⟩ |
    ⟨n, m₁, m₂, cause, hruns, hfault, heq⟩ | ⟨_, _, _, _, heq⟩
  · simp [heq]
  · rw [heq]
    intro hcause
    cases hcause
    apply hafter n address pc
    rw [← hruns.eq_after, hfault]
  · simp [heq]

/-- A program that branches into the middle of an addition and back into the preamble; one of its
lines is no statement. -/
def detour : String :=
  "DEF a 5\nDEF b 3\nHOP a\nADD a ioPort b\nIFGT b a 9\nMOV b ioPort\nJMP 2"

theorem never_uninitialized_detour :
    (Session.compile {} detour).2 = none ∧ (Session.compile {} detour).1.NoLateDefinition ∧
      (Session.compile {} detour).1.NamedData ∧
      ∀ n address pc, ((ofProgram (Session.compile {} detour).1.program (Input.ofScript [.ok 7])
        "out").reset.after n).step.1 ≠ .faulted (.uninitialized address pc) := by
  have hraised : (Session.compile {} detour).2 = none := by decide +kernel
  have hlate : (Session.compile {} detour).1.NoLateDefinition := by decide +kernel
  have hnames : (Session.compile {} detour).1.NamedData := by decide +kernel
  exact ⟨hraised, hlate, hnames,
    (never_uninitialized (Session.compile_eq hraised) hlate hnames (Input.ofScript [.ok 7]) "out").1⟩

end Machine

end Subleq
