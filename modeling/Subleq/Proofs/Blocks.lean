import Mathlib
import Subleq.Proofs.Cells
import Subleq.Proofs.Meaning
import Subleq.Proofs.Steps

/-!
# Subleq.Proofs.Blocks — what the code of an operation does

A block is followed cell by cell. `Leads` says where a number of steps takes the program counter and
the stored cells, and that the block is not left on the way; such walks are put together by
`Leads.trans`, from single cells (`leads_take`) and from rows of cells without branches
(`leads_straight`). What comes of the blocks without loops is here.

The operands may be any cells below the reserved ones, also the same one several times. What a block
makes of the stored cells is said by `Store.Gives`: one cell has the result, and no other cell has
changed but the scratch cells.
-/

namespace Subleq

open Layout

/-! ## Stored cells -/

/-- The stored cells as a function. -/
abbrev Store : Type := Int → Option Int

namespace Store

variable {σ σ' : Store} {a b x y : Int}

/-- The value of a cell that is stored. -/
def val (σ : Store) (a : Int) : Int := (σ a).getD 0

/-- The cells after a subtraction. -/
def take (σ : Store) (a b : Int) : Store :=
  Function.update σ b (some (Byte.fold (σ.val b - σ.val a)))

/-- The cells after a row of subtractions. -/
def takes (σ : Store) (pairs : List (Int × Int)) : Store :=
  pairs.foldl (fun σ pair => σ.take pair.1 pair.2) σ

/-- One of the cells that hold what they like between statements. -/
def IsScratch (a : Int) : Prop := tempC ≤ a ∧ a ≤ tempA

instance (a : Int) : Decidable (IsScratch a) := inferInstanceAs (Decidable (_ ∧ _))

/-- The zero cell holds zero, and the scratch cells are stored. -/
structure Ready (σ : Store) : Prop where
  zero : σ Layout.zero = some 0
  scratch : ∀ a, IsScratch a → (σ a).isSome

/-- A cell below the reserved ones holds a byte. -/
structure Operand (σ : Store) (a x : Int) : Prop where
  nonneg : 0 ≤ a
  lt : a < Layout.zero
  eq : σ a = some x
  min : -128 ≤ x
  max : x ≤ 127

/-- A cell below the reserved ones that is stored, whatever its value. -/
structure Destination (σ : Store) (a : Int) : Prop where
  nonneg : 0 ≤ a
  lt : a < Layout.zero
  isSome : (σ a).isSome

/-- A cell has been given a value, and but for the scratch cells no other cell has changed. -/
structure Gives (σ σ' : Store) (c r : Int) : Prop where
  result : σ' c = some r
  frame : ∀ a, a ≠ c → ¬IsScratch a → σ' a = σ a
  scratch : ∀ a, IsScratch a → (σ' a).isSome

/-- But for the scratch cells no cell has changed. -/
structure Spares (σ σ' : Store) : Prop where
  frame : ∀ a, ¬IsScratch a → σ' a = σ a
  scratch : ∀ a, IsScratch a → (σ' a).isSome

theorem ready_iff : σ.Ready ↔
    σ Layout.zero = some 0 ∧ (σ tempC).isSome ∧ (σ tempB).isSome ∧ (σ tempA).isSome := by
  constructor
  · intro h
    exact ⟨h.zero, h.scratch _ (by decide), h.scratch _ (by decide), h.scratch _ (by decide)⟩
  · rintro ⟨hzero, hC, hB, hA⟩
    refine ⟨hzero, fun a ha => ?_⟩
    have hcases : a = tempC ∨ a = tempB ∨ a = tempA := by
      simp only [IsScratch, tempA, tempB, tempC] at ha ⊢
      omega
    rcases hcases with rfl | rfl | rfl <;> assumption

theorem operand_iff : σ.Operand a x ↔
    (0 ≤ a ∧ a < Layout.zero) ∧ σ a = some x ∧ -128 ≤ x ∧ x ≤ 127 :=
  ⟨fun h => ⟨⟨h.nonneg, h.lt⟩, h.eq, h.min, h.max⟩,
    fun ⟨⟨hnonneg, hlt⟩, heq, hmin, hmax⟩ => ⟨hnonneg, hlt, heq, hmin, hmax⟩⟩

instance (σ : Store) : Decidable σ.Ready := decidable_of_iff _ ready_iff.symm

instance (σ : Store) (a x : Int) : Decidable (σ.Operand a x) :=
  decidable_of_iff _ operand_iff.symm

theorem Ready.isSome_zero (h : σ.Ready) : (σ Layout.zero).isSome := by
  rw [h.zero]
  rfl

theorem Gives.ready {c r : Int} (h : σ.Gives σ' c r) (hready : σ.Ready) (hc : c < Layout.zero) :
    σ'.Ready := by
  refine ⟨?_, h.scratch⟩
  have hscratch : ¬IsScratch Layout.zero := by
    simp [IsScratch, tempC, Layout.zero]
  rw [h.frame _ (by omega) hscratch]
  exact hready.zero

theorem Spares.ready (h : σ.Spares σ') (hready : σ.Ready) : σ'.Ready := by
  refine ⟨?_, h.scratch⟩
  rw [h.frame _ (by simp [IsScratch, tempC, Layout.zero])]
  exact hready.zero

theorem Spares.trans {σ'' : Store} (h : σ.Spares σ') (h' : σ'.Spares σ'') : σ.Spares σ'' :=
  ⟨fun a ha => (h'.frame a ha).trans (h.frame a ha), h'.scratch⟩

/-- Whatever is put into a scratch cell. -/
theorem Spares.update (h : σ.Spares σ') (ha : IsScratch a) (v : Int) :
    σ.Spares (Function.update σ' a (some v)) := by
  constructor
  · intro k hk
    have hne : k ≠ a := fun heq => hk (heq ▸ ha)
    rw [Function.update_of_ne hne]
    exact h.frame k hk
  · intro k hk
    rw [Function.update_apply]
    split
    · rfl
    · exact h.scratch k hk

theorem take_eq (hx : σ a = some x) (hy : σ b = some y) :
    σ.take a b = Function.update σ b (some (Byte.fold (y - x))) := by
  simp [take, val, hx, hy]

theorem isSome_take (a b : Int) {k : Int} (h : (σ k).isSome) : ((σ.take a b) k).isSome := by
  unfold take
  rw [Function.update_apply]
  split
  · rfl
  · exact h

theorem isSome_takes (pairs : List (Int × Int)) {k : Int} (h : (σ k).isSome) :
    ((σ.takes pairs) k).isSome := by
  induction pairs generalizing σ with
  | nil => exact h
  | cons pair pairs ih => exact ih (isSome_take pair.1 pair.2 h)

/-- Cells that nothing is subtracted from stay as they are. -/
theorem takes_frame {pairs : List (Int × Int)} {k : Int} (h : ∀ pair ∈ pairs, k ≠ pair.2) :
    (σ.takes pairs) k = σ k := by
  induction pairs generalizing σ with
  | nil => rfl
  | cons pair pairs ih =>
    have hrest : (σ.takes (pair :: pairs)) k = (σ.take pair.1 pair.2) k :=
      ih fun q hq => h q (List.mem_cons_of_mem pair hq)
    rw [hrest, take, Function.update_of_ne (h pair (by simp))]

/-- A cell of the data store, not the port, that is stored. -/
def Stores (σ : Store) (a : Int) : Prop := 0 ≤ a ∧ a < ioPort ∧ (σ a).isSome

/-- It stays stored, whatever is subtracted from whatever. -/
theorem Stores.takes (h : σ.Stores a) (pairs : List (Int × Int)) : (σ.takes pairs).Stores a :=
  ⟨h.1, h.2.1, isSome_takes pairs h.2.2⟩

theorem takes_append (σ : Store) (pairs pairs' : List (Int × Int)) :
    σ.takes (pairs ++ pairs') = (σ.takes pairs).takes pairs' :=
  List.foldl_append

theorem Destination.stores (h : σ.Destination a) : σ.Stores a := by
  have hlt := h.lt
  simp only [Layout.zero] at hlt
  exact ⟨h.nonneg, by simp only [ioPort]; omega, h.isSome⟩

/-- A destination is none of the reserved cells. -/
theorem Destination.ne (h : σ.Destination a) (k : Int) (hk : 250 ≤ k) : a ≠ k ∧ k ≠ a := by
  have hlt := h.lt
  simp only [Layout.zero] at hlt
  omega

theorem IsScratch.ne_zero (h : IsScratch a) : a ≠ Layout.zero := by
  simp only [IsScratch, tempC, tempA] at h
  simp only [Layout.zero]
  omega

theorem not_isScratch_of_lt (h : a < Layout.zero) : ¬IsScratch a := by
  simp only [Layout.zero] at h
  simp only [IsScratch, tempC, tempA]
  omega

theorem Destination.ne_of_isScratch (h : σ.Destination a) (hb : IsScratch b) : b ≠ a := by
  rintro rfl
  exact not_isScratch_of_lt h.lt hb

theorem Operand.destination (h : σ.Operand a x) : σ.Destination a :=
  ⟨h.nonneg, h.lt, by simp [h.eq]⟩

theorem Operand.stores (h : σ.Operand a x) : σ.Stores a := h.destination.stores

theorem Operand.ne (h : σ.Operand a x) (k : Int) (hk : 250 ≤ k) : a ≠ k ∧ k ≠ a :=
  h.destination.ne k hk

theorem Operand.not_isScratch (h : σ.Operand a x) : ¬IsScratch a := not_isScratch_of_lt h.lt

theorem Operand.spares (h : σ.Operand a x) (hs : σ.Spares σ') : σ'.Operand a x :=
  ⟨h.nonneg, h.lt, (hs.frame a h.not_isScratch).trans h.eq, h.min, h.max⟩

/-- What is stored stays stored when a cell is given a value. -/
theorem Gives.isSome {c r k : Int} (h : σ.Gives σ' c r) (hk : (σ k).isSome) : (σ' k).isSome := by
  by_cases hkc : k = c
  · rw [hkc, h.result]
    rfl
  · by_cases hscratch : IsScratch k
    · exact h.scratch k hscratch
    · rw [h.frame k hkc hscratch]
      exact hk

theorem Ready.stores (h : σ.Ready) (ha : a = Layout.zero ∨ IsScratch a) : σ.Stores a := by
  rcases ha with rfl | ha
  · exact ⟨by decide, by decide, by simp [h.zero]⟩
  · have hsome := h.scratch a ha
    simp only [IsScratch, tempC, tempA] at ha
    exact ⟨by omega, by simp only [ioPort]; omega, hsome⟩

theorem Ready.spares_takes (hσ : σ.Ready) {pairs : List (Int × Int)}
    (hwrites : ∀ pair ∈ pairs, IsScratch pair.2) : σ.Spares (σ.takes pairs) := by
  refine ⟨fun k hk => takes_frame ?_, fun k hk => isSome_takes _ (hσ.scratch k hk)⟩
  intro pair hpair heq
  exact hk (heq ▸ hwrites pair hpair)

/-- A row of subtractions that only writes to a cell, to the zero cell, which it clears, and to
scratch cells. -/
theorem Ready.gives_takes (hσ : σ.Ready) {pairs : List (Int × Int)} {c r : Int}
    (hresult : (σ.takes pairs) c = some r) (hzero : (σ.takes pairs) Layout.zero = some 0)
    (hwrites : ∀ pair ∈ pairs, pair.2 = c ∨ pair.2 = Layout.zero ∨ IsScratch pair.2) :
    σ.Gives (σ.takes pairs) c r := by
  refine ⟨hresult, fun k hk hscratch => ?_, fun k hk => isSome_takes _ (hσ.scratch k hk)⟩
  by_cases hkz : k = Layout.zero
  · rw [hkz, hzero, hσ.zero]
  · apply takes_frame
    intro pair hpair heq
    rcases hwrites pair hpair with hw | hw | hw
    · exact hk (heq.trans hw)
    · exact hkz (heq.trans hw)
    · exact hscratch (heq ▸ hw)

end Store

/-- The program has these cells from an address on. -/
def Program.Holds (p : Program) (first : Int) (cells : List Cell) : Prop :=
  ∀ (i : Nat) c, cells[i]? = some c → p.fetch (first + i) = c

theorem Program.Holds.left {p : Program} {first : Int} {cells rest : List Cell}
    (h : p.Holds first (cells ++ rest)) : p.Holds first cells := by
  intro i c hi
  have hlt := (List.getElem?_eq_some_iff.mp hi).1
  exact h i c (by rw [List.getElem?_append_left hlt, hi])

theorem Program.Holds.right {p : Program} {first : Int} {cells rest : List Cell}
    (h : p.Holds first (cells ++ rest)) : p.Holds (first + cells.length) rest := by
  intro i c hi
  have hindex : cells.length + i - cells.length = i := by omega
  have hcell := h (cells.length + i) c
    (by rw [List.getElem?_append_right (Nat.le_add_right ..), hindex, hi])
  rw [← hcell]
  congr 1
  push_cast
  omega

/-- The first cell and the others. -/
theorem Program.Holds.cons {p : Program} {first : Int} {c : Cell} {cells : List Cell}
    (h : p.Holds first (c :: cells)) : p.fetch first = c ∧ p.Holds (first + 1) cells := by
  have hboth : p.Holds first ([c] ++ cells) := h
  exact ⟨by simpa using h 0 c rfl, hboth.right⟩

/-! ## Walks through a block -/

namespace Machine

/-- The machine executes a program, and its program counter and its cells are these. -/
structure At (m : Machine) (p : Program) (pc : Int) (σ : Store) : Prop where
  program : m.program = p
  wired : m.memory.Wired
  pc : m.pc = pc
  cells : ∀ a, m.memory.cells[a]? = σ a

/-- A number of steps takes the machine from one address and cells to others; in between the program
counter is inside of a block, neither at its first cell nor after its last one. -/
def Leads (p : Program) (first last : Int) (n : Nat) (pc : Int) (σ : Store) (pc' : Int)
    (σ' : Store) : Prop :=
  ∀ m : Machine, m.At p pc σ → ∃ m', Runs n m m' ∧ m'.At p pc' σ' ∧
    ∀ j m₁, 0 < j → j < n → Runs j m m₁ → first < m₁.pc ∧ m₁.pc < last

variable {p : Program} {first last pc pc₁ pc₂ a b target x y : Int} {σ σ₁ σ₂ : Store} {n k : Nat}

theorem Leads.refl (p : Program) (first last pc : Int) (σ : Store) :
    Leads p first last 0 pc σ pc σ :=
  fun m hm => ⟨m, .refl m, hm, fun j _ hj hj' => by omega⟩

theorem Leads.trans (h : Leads p first last n pc σ pc₁ σ₁)
    (h' : Leads p first last k pc₁ σ₁ pc₂ σ₂) (hmid : 0 < k → first < pc₁ ∧ pc₁ < last) :
    Leads p first last (n + k) pc σ pc₂ σ₂ := by
  intro m hm
  rcases h m hm with ⟨m₁, hruns, hm₁, hinside⟩
  rcases h' m₁ hm₁ with ⟨m₂, hruns', hm₂, hinside'⟩
  refine ⟨m₂, hruns.trans hruns', hm₂, fun j m' hpos hlt hj => ?_⟩
  rcases Nat.lt_trichotomy j n with hj' | hj' | hj'
  · exact hinside j m' hpos hj' hj
  · -- exactly where the walks meet
    have hsame : m' = m₁ := by
      rw [hj.eq_after, hruns.eq_after, hj']
    rw [hsame, hm₁.pc]
    exact hmid (by omega)
  · have hadd : j = n + (j - n) := by omega
    rw [hadd] at hj
    rcases hj.split with ⟨m₀, hfirst, hrest⟩
    have hsame : m₀ = m₁ := hfirst.eq_after.trans hruns.eq_after.symm
    rw [hsame] at hrest
    exact hinside' (j - n) m' (by omega) (by omega) hrest

/-- A walk that does not leave a block does not leave a larger one. -/
theorem Leads.widen {first' last' : Int} (h : Leads p first last n pc σ pc₁ σ₁)
    (hfirst : first' ≤ first) (hlast : last ≤ last') : Leads p first' last' n pc σ pc₁ σ₁ := by
  intro m hm
  rcases h m hm with ⟨m', hruns, hm', hinside⟩
  refine ⟨m', hruns, hm', fun j m₁ hpos hlt hj => ?_⟩
  have hin := hinside j m₁ hpos hlt hj
  omega

/-- A load walks on to the next cell. -/
theorem leads_load {v d next : Int} (hcell : p.fetch pc = .load v d next) (hd : 0 ≤ d)
    (hd' : d < ioPort) (hpc : pc < maxPc) (hnext : next < maxPc) :
    Leads p first last 1 pc σ next (Function.update σ d (some v)) := by
  intro m hm
  have hfetch : m.fetch m.pc = .load v d next := by
    rw [fetch, hm.program, hm.pc]
    exact hcell
  rcases runs_load (hm.pc ▸ hpc) hnext hfetch with ⟨m', hruns, hpc', hmemory, hprogram⟩
  have hcellOf : Memory.cellOf d = d := Memory.cellOf_eq hd (by simp only [ioPort] at hd'; omega)
  refine ⟨m', hruns, ⟨hprogram.trans hm.program, ?_, hpc', fun a => ?_⟩,
    fun j _ hj hj' => by omega⟩
  · rw [hmemory]
    exact hm.wired.write d v
  · rw [hmemory, Memory.get?_write hm.wired, hcellOf, hm.cells, Function.update_apply]
    have hport : d ≠ ioPort := by omega
    simp [hport]

/-- A subtraction of stored cells walks on to the next cell or to its target. -/
theorem leads_take (hcell : p.fetch pc = .subleq a b target)
    (hne : Cell.subleq a b target ≠ .empty) (ha : 0 ≤ a ∧ a < ioPort) (hb : 0 ≤ b ∧ b < ioPort)
    (hx : σ a = some x) (hy : σ b = some y) (hpc : pc + 1 < maxPc) (htarget : target < maxPc) :
    Leads p first last 1 pc σ (if Byte.fold (y - x) ≤ 0 then target else pc + 1)
      (Function.update σ b (some (Byte.fold (y - x)))) := by
  intro m hm
  have hfetch : m.fetch m.pc = .subleq a b target := by
    rw [fetch, hm.program, hm.pc]
    exact hcell
  have hcellOf : Memory.cellOf a = a ∧ Memory.cellOf b = b := by
    simp only [ioPort] at ha hb
    exact ⟨Memory.cellOf_eq ha.1 (by omega), Memory.cellOf_eq hb.1 (by omega)⟩
  have hport : ∀ d, Memory.cellOf d = d → d < ioPort →
      Memory.cellOf d ≠ m.start.memory.portAddress := by
    intro d hd hlt
    rw [start_memory, hm.wired.port, hd]
    omega
  have hread : m.start.memory.read a = (.ok x, m.memory) := by
    rw [Memory.read_stored (hport a hcellOf.1 ha.2) (v := x), start_memory]
    rw [start_memory, hcellOf.1, hm.cells, hx]
  have hread' : m.memory.read b = (.ok y, m.memory) := by
    have hport' := hport b hcellOf.2 hb.2
    rw [start_memory] at hport'
    exact Memory.read_stored hport' (by rw [hcellOf.2, hm.cells, hy])
  have hexec : m.start.executeSubleq a b target =
      (.ok (), { m.start with
        memory := m.memory.write b (Byte.fold (y - x))
        pc := if Byte.fold (y - x) ≤ 0 then target else m.pc + 1 }) := by
    simp only [executeSubleq, hread, hread', start_pc]
  have hstep := step_of_subleq (by rw [hm.pc]; omega) hfetch hne
  rw [hexec] at hstep
  -- neither address is beyond the program store
  have hrunning : m.step.1 = .running := by
    rw [hstep]
    simp only [conclude, settle_fst, settle_pc, goesOn, hm.pc]
    split <;> (try split) <;> first | rfl | omega
  refine ⟨m.step.2, .one (Prod.ext hrunning rfl), ⟨?_, ?_, ?_, fun d => ?_⟩,
    fun j _ hj hj' => by omega⟩
  · exact (program_step m).trans hm.program
  · exact wired_step hm.wired
  · rw [hstep]
    simp [conclude, hm.pc]
  · rw [hstep]
    simp only [conclude, settle_memory]
    rw [Memory.get?_write hm.wired, hcellOf.2, hm.cells, Function.update_apply]
    have hbport : b ≠ ioPort := by omega
    simp [hbport]

/-- A subtraction with a result that is not positive walks on to its target. -/
theorem leads_take_of_le {v : Int} (hcell : p.fetch pc = .subleq a b target)
    (hne : Cell.subleq a b target ≠ .empty) (ha : 0 ≤ a ∧ a < ioPort) (hb : 0 ≤ b ∧ b < ioPort)
    (hx : σ a = some x) (hy : σ b = some y) (hpc : pc + 1 < maxPc) (htarget : target < maxPc)
    (hv : Byte.fold (y - x) = v) (hle : v ≤ 0) :
    Leads p first last 1 pc σ target (Function.update σ b (some v)) := by
  have hwalk : Leads p first last 1 pc σ _ _ := leads_take hcell hne ha hb hx hy hpc htarget
  rw [hv, if_pos hle] at hwalk
  exact hwalk

/-- One with a positive result walks on to the next cell. -/
theorem leads_take_of_pos {v : Int} (hcell : p.fetch pc = .subleq a b target)
    (hne : Cell.subleq a b target ≠ .empty) (ha : 0 ≤ a ∧ a < ioPort) (hb : 0 ≤ b ∧ b < ioPort)
    (hx : σ a = some x) (hy : σ b = some y) (hpc : pc + 1 < maxPc) (htarget : target < maxPc)
    (hv : Byte.fold (y - x) = v) (hlt : 0 < v) (hnext : pc + 1 = pc₁) :
    Leads p first last 1 pc σ pc₁ (Function.update σ b (some v)) := by
  have hwalk : Leads p first last 1 pc σ _ _ := leads_take hcell hne ha hb hx hy hpc htarget
  rw [hv, if_neg (Int.not_le.mpr hlt), hnext] at hwalk
  exact hwalk

/-- Zero minus zero branches always. -/
theorem leads_goto (hcell : p.fetch pc = .subleq zero zero target) (hzero : (σ zero).isSome)
    (hpc : pc + 1 < maxPc) (htarget : target < maxPc) :
    Leads p first last 1 pc σ target (Function.update σ zero (some 0)) := by
  rcases Option.isSome_iff_exists.mp hzero with ⟨v, hv⟩
  have hmem : 0 ≤ zero ∧ zero < ioPort := by decide
  have hne : Cell.subleq zero zero target ≠ .empty := by
    simp [Cell.empty, zero]
  exact leads_take_of_le hcell hne hmem hmem hv hv hpc htarget (by rw [Int.sub_self]; rfl)
    (Int.le_refl 0)

/-- A cell of code that goes on at the next one is not empty. -/
theorem ne_empty_of_next (hpc : 0 ≤ pc) : Cell.subleq a b (pc + 1) ≠ .empty := by
  simp only [Cell.empty, ne_eq, Cell.subleq.injEq]
  omega

/-- A row of subtractions without branches is done one by one. -/
theorem leads_straight (pairs : List (Int × Int)) (hcells : p.Holds pc (straight pc pairs))
    (hpos : 0 ≤ pc) (hfirst : first ≤ pc) (hlast : pc + pairs.length ≤ last) (hroom : last < maxPc)
    (hstores : ∀ pair ∈ pairs, σ.Stores pair.1 ∧ σ.Stores pair.2) :
    Leads p first last pairs.length pc σ (pc + pairs.length) (σ.takes pairs) := by
  induction pairs generalizing pc σ with
  | nil => simpa [Store.takes] using Leads.refl p first last pc σ
  | cons pair pairs ih =>
    simp only [List.length_cons] at hlast ⊢
    push_cast at hlast ⊢
    rcases hstores pair (by simp) with ⟨ha, hb⟩
    rcases Option.isSome_iff_exists.mp ha.2.2 with ⟨x, hx⟩
    rcases Option.isSome_iff_exists.mp hb.2.2 with ⟨y, hy⟩
    obtain ⟨hcell, hrest⟩ := Program.Holds.cons hcells
    have hone : Leads p first last 1 pc σ _ _ := leads_take hcell (ne_empty_of_next hpos)
      ⟨ha.1, ha.2.1⟩ ⟨hb.1, hb.2.1⟩ hx hy (by omega) (by omega)
    rw [ite_self, ← Store.take_eq hx hy] at hone
    have hstores' : ∀ q ∈ pairs, (σ.take pair.1 pair.2).Stores q.1 ∧
        (σ.take pair.1 pair.2).Stores q.2 := by
      intro q hq
      rcases hstores q (List.mem_cons_of_mem pair hq) with ⟨hq₁, hq₂⟩
      exact ⟨hq₁.takes [pair], hq₂.takes [pair]⟩
    have hwalk := hone.trans (ih hrest (by omega) (by omega) (by omega) hstores')
      (fun hmore => ⟨by omega, by omega⟩)
    have hadd : 1 + pairs.length = pairs.length + 1 := by omega
    have hadd' : pc + 1 + (pairs.length : Int) = pc + (pairs.length + 1) := by omega
    rw [hadd, hadd'] at hwalk
    exact hwalk

/-! ## Blocks without branches -/

section Straight

variable {o c z : Int}

-- Values of cells after a row of subtractions, by going through the row.
attribute [local simp] Store.takes Store.take Store.val Function.update_apply zero negOne tempA
  tempB tempC

/-- A cell that is moved to itself is cleared before it is read. -/
theorem leads_move (hcells : p.Holds o ((Code.operation (.move a b)).cells o)) (ho : 0 ≤ o)
    (hroom : o + 4 < maxPc) (hσ : σ.Ready) (ha : σ.Operand a x) (hb : σ.Destination b) :
    ∃ σ', Leads p o (o + 4) 4 o σ (o + 4) σ' ∧ σ.Gives σ' b (if a = b then 0 else Byte.copied x) ∧
      ∀ k, Store.IsScratch k → σ' k = σ k := by
  rw [Code.cells_move] at hcells
  have hwalk : Leads p o (o + 4) 4 o σ (o + 4) _ :=
    leads_straight _ hcells ho (Int.le_refl o) (Int.le_refl _) hroom
      (by simp only [List.forall_mem_cons, ha.stores, hb.stores, hσ.stores (.inl rfl)]; simp)
  have hz : σ 250 = some 0 := hσ.zero
  refine ⟨_, hwalk, hσ.gives_takes ?_ ?_ ?_, fun k hk => Store.takes_frame ?_⟩
  · have hcopied := Byte.fold_neg_twice ha.min ha.max
    by_cases hab : a = b
    · simp [hab, hb.ne, hz]
    · simp [hb.ne, hab, ha.eq, hz, hcopied]
  · simp [hb.ne]
  · simp
  · have hkb := hb.ne_of_isScratch hk
    have hkz : k ≠ 250 := hk.ne_zero
    simp [hkb, hkz]

theorem leads_add (hcells : p.Holds o ((Code.operation (.arith .add a b c)).cells o)) (ho : 0 ≤ o)
    (hroom : o + 5 < maxPc) (hσ : σ.Ready) (ha : σ.Operand a x) (hb : σ.Operand b y)
    (hc : σ.Destination c) :
    ∃ σ', Leads p o (o + 5) 5 o σ (o + 5) σ' ∧ σ.Gives σ' c (Byte.residue (x + y)) ∧
      ∀ k, Store.IsScratch k → σ' k = σ k := by
  rw [Code.cells_add] at hcells
  have hwalk : Leads p o (o + 5) 5 o σ (o + 5) _ :=
    leads_straight _ hcells ho (Int.le_refl o) (Int.le_refl _) hroom
      (by simp only [List.forall_mem_cons, ha.stores, hb.stores, hc.stores, hσ.stores (.inl rfl)]
          simp)
  have hz : σ 250 = some 0 := hσ.zero
  refine ⟨_, hwalk, hσ.gives_takes ?_ ?_ ?_, fun k hk => Store.takes_frame ?_⟩
  · have hsum := Byte.fold_sum ha.min ha.max hb.min hb.max
    simp [hb.ne, hc.ne, ha.eq, hb.eq, hz, hsum]
  · simp [hc.ne]
  · simp
  · have hkc := hc.ne_of_isScratch hk
    have hkz : k ≠ 250 := hk.ne_zero
    simp [hkc, hkz]

theorem leads_sub (hcells : p.Holds o ((Code.operation (.arith .sub a b c)).cells o)) (ho : 0 ≤ o)
    (hroom : o + 9 < maxPc) (hσ : σ.Ready) (ha : σ.Operand a x) (hb : σ.Operand b y)
    (hc : σ.Destination c) :
    ∃ σ', Leads p o (o + 9) 9 o σ (o + 9) σ' ∧ σ.Gives σ' c (Byte.residue (y - x)) ∧
      σ' tempC = σ tempC := by
  rw [Code.cells_sub] at hcells
  have hA := hσ.stores (a := tempA) (.inr (by simp [Store.IsScratch]))
  have hB := hσ.stores (a := tempB) (.inr (by simp [Store.IsScratch]))
  have hwalk : Leads p o (o + 9) 9 o σ (o + 9) _ :=
    leads_straight _ hcells ho (Int.le_refl o) (Int.le_refl _) hroom
      (by simp only [List.forall_mem_cons, ha.stores, hb.stores, hc.stores, hA, hB]; simp)
  refine ⟨_, hwalk, hσ.gives_takes ?_ ?_ ?_, Store.takes_frame ?_⟩
  · have hdifference := Byte.fold_difference ha.min ha.max hb.min hb.max
    simp [ha.ne, hb.ne, hc.ne, ha.eq, hb.eq, hdifference]
  · simpa [hc.ne] using hσ.zero
  · simp [Store.IsScratch]
  · simp [hc.ne]

/-- The first part of a comparison, which copies the operands and changes their signs. -/
theorem leads_start
    (hcells : p.Holds o (straight o [(tempC, tempC), (b, tempC), (tempA, tempA), (a, tempA),
      (tempB, tempB)])) (ho : 0 ≤ o) (hroom : o + 14 < maxPc) (hσ : σ.Ready) (ha : σ.Operand a x)
    (hb : σ.Operand b y) :
    ∃ σ', Leads p o (o + 14) 5 o σ (o + 5) σ' ∧ σ.Spares σ' ∧ σ' tempA = some (-Byte.copied x) ∧
      σ' tempB = some 0 ∧ σ' tempC = some (-Byte.copied y) := by
  have hscratch : Store.IsScratch tempA ∧ Store.IsScratch tempB ∧ Store.IsScratch tempC := by
    simp [Store.IsScratch]
  have hA := hσ.stores (.inr hscratch.1)
  have hB := hσ.stores (.inr hscratch.2.1)
  have hC := hσ.stores (.inr hscratch.2.2)
  refine ⟨_, leads_straight _ hcells ho (Int.le_refl o) (by simp) hroom ?_,
    hσ.spares_takes ?_, ?_, ?_, ?_⟩
  · simp only [List.forall_mem_cons, ha.stores, hb.stores, hA, hB, hC]
    simp
  · simp [Store.IsScratch]
  · have hneg := Byte.fold_neg ha.min ha.max
    simp [ha.ne, hb.ne, ha.eq, hneg]
  · simp
  · have hneg := Byte.fold_neg hb.min hb.max
    simp [hb.ne, hb.eq, hneg]

end Straight

/-! ## Blocks that branch -/

section Branches

variable {o z : Int}

theorem leads_jump (hcells : p.Holds o ((Code.operation (.jump target)).cells o))
    (hroom : o + 1 < maxPc) (htarget : target < maxPc) (hσ : σ.Ready) :
    Leads p o (o + 1) 1 o σ target σ := by
  rw [Code.cells_jump] at hcells
  have hcell : p.fetch o = .subleq zero zero target := by
    simpa using hcells 0 _ rfl
  have hwalk : Leads p o (o + 1) 1 o σ target _ :=
    leads_goto hcell (by simp [hσ.zero]) hroom htarget
  have hsame : Function.update σ zero (some 0) = σ := by
    rw [← hσ.zero, Function.update_eq_self]
  rw [hsame] at hwalk
  exact hwalk

/-- The value of the operand goes to a scratch cell, and the program goes to that cell's number. -/
theorem leads_jumpVia (hcells : p.Holds o ((Code.operation (.jumpVia a)).cells o)) (ho : 0 ≤ o)
    (hroom : o + 4 < maxPc) (hσ : σ.Ready) (ha : σ.Operand a x) :
    ∃ σ', Leads p o (o + 4) 4 o σ tempA σ' ∧ σ.Spares σ' := by
  rw [Code.cells_jumpVia] at hcells
  have hA := hσ.stores (a := tempA) (.inr (by simp [Store.IsScratch, tempA, tempC]))
  have hZ := hσ.stores (a := zero) (.inl rfl)
  have hwalk : Leads p o (o + 4) 3 o σ (o + 3) _ :=
    leads_straight _ hcells.left ho (Int.le_refl o) (by simp) hroom
      (by simp only [List.forall_mem_cons, ha.stores, hA, hZ]; simp)
  have hcell : p.fetch (o + 3) = .subleq zero zero tempA := hcells 3 _ rfl
  refine ⟨_, hwalk.trans (leads_goto hcell (Store.isSome_takes _ hZ.2.2) (by omega) (by decide))
    fun _ => ⟨by omega, by omega⟩, ?_, ?_⟩
  · intro k hk
    rw [Function.update_apply]
    split
    · next hkz => rw [hkz, hσ.zero]
    · next hkz =>
      apply Store.takes_frame
      have hkA : k ≠ tempA := by
        rintro rfl
        exact hk (by simp [Store.IsScratch, tempA, tempC])
      simp [hkz, hkA]
  · intro k hk
    have hne : k ≠ zero := by
      simp only [Store.IsScratch, tempC, tempA, zero] at hk ⊢
      omega
    rw [Function.update_of_ne hne]
    exact Store.isSome_takes _ (hσ.scratch k hk)

/-- The last part of a comparison, which decides between operands on one side of zero. -/
theorem leads_same {greater atMost : Int} {u : Int}
    (hcell : p.fetch (o + 12) = .subleq b tempB atMost)
    (hcell' : p.fetch (o + 13) = .subleq zero zero greater) (hroom : o + 14 < maxPc)
    (hgreater : greater < maxPc) (hatMost : atMost < maxPc) (hσ : σ.Ready) (hb : σ.Operand b y)
    (hu : -127 ≤ u ∧ u ≤ 127) (hB : σ tempB = some u)
    (hsame : (0 < u ∧ 0 < Byte.copied y) ∨ (u ≤ 0 ∧ Byte.copied y ≤ 0)) :
    ∃ n σ', n ≤ 2 ∧ Leads p o (o + 14) n (o + 12) σ
      (if Byte.copied y < u then greater else atMost) σ' ∧ σ.Spares σ' := by
  have hscratch : Store.IsScratch tempB := by
    simp [Store.IsScratch, tempA, tempB, tempC]
  have hBmem : 0 ≤ tempB ∧ tempB < ioPort := by decide
  have hne : Cell.subleq b tempB atMost ≠ .empty := by
    simp [Cell.empty, tempB]
  have hspares : σ.Spares (Function.update σ tempB (some (Byte.fold (u - y)))) :=
    .update ⟨fun _ _ => rfl, hσ.scratch⟩ hscratch _
  have hy := hb.min
  have hy' := hb.max
  -- on one side of zero, the difference has the sign that counts
  have hsign : Byte.fold (u - y) ≤ 0 ↔ ¬Byte.copied y < u := by
    have hfold := Byte.fold_cases (u - y)
    have hcopied := Byte.copied_cases y
    omega
  by_cases hlt : Byte.copied y < u
  · have hpos : 0 < Byte.fold (u - y) := by
      rw [← Int.not_le, hsign, not_not]
      exact hlt
    have htest : Leads p o (o + 14) 1 (o + 12) σ (o + 13) _ :=
      leads_take_of_pos hcell hne ⟨hb.stores.1, hb.stores.2.1⟩ hBmem hb.eq hB (by omega) hatMost
        rfl hpos (by omega)
    have hready := hspares.ready hσ
    have hwalk := htest.trans (leads_goto hcell' (by simp [hready.zero]) (by omega) hgreater)
      fun _ => ⟨by omega, by omega⟩
    rw [← hready.zero, Function.update_eq_self] at hwalk
    rw [if_pos hlt]
    exact ⟨2, _, by omega, hwalk, hspares⟩
  · have hle := hsign.mpr hlt
    rw [if_neg hlt]
    exact ⟨1, _, by omega, leads_take_of_le hcell hne ⟨hb.stores.1, hb.stores.2.1⟩ hBmem hb.eq hB
      (by omega) hatMost rfl hle, hspares⟩

/-- The part of a comparison that takes the second operand to `tempA` and looks at its sign. -/
theorem leads_sign {w : Int} (hclear : p.fetch pc = .subleq tempA tempA pc₁)
    (htest : p.fetch pc₁ = .subleq tempC tempA target) (hnext : pc + 1 = pc₁)
    (hnext' : pc + 2 = pc₂) (hfirst : first ≤ pc) (hlast : pc₂ ≤ last) (hroom : last < maxPc)
    (htarget : target < maxPc) (hA : (σ tempA).isSome) (hC : σ tempC = some (-w))
    (hw : -127 ≤ w ∧ w ≤ 127) :
    Leads p first last 2 pc σ (if w ≤ 0 then target else pc₂)
      (Function.update σ tempA (some w)) := by
  rcases Option.isSome_iff_exists.mp hA with ⟨v, hv⟩
  have hAmem : 0 ≤ tempA ∧ tempA < ioPort := by decide
  have hCmem : 0 ≤ tempC ∧ tempC < ioPort := by decide
  have hfirstWalk : Leads p first last 1 pc σ pc₁ _ :=
    leads_take_of_le hclear (by simp [Cell.empty, tempA]) hAmem hAmem hv hv (by omega) (by omega)
      (by rw [Int.sub_self]; rfl) (Int.le_refl 0)
  have hC' : (Function.update σ tempA (some 0)) tempC = some (-w) := by
    rw [Function.update_of_ne (by decide), hC]
  have hcopy : Byte.fold (0 - -w) = w := by
    rw [Int.sub_neg, Int.zero_add]
    exact Byte.fold_of_mem (by omega) hw.2
  have htestWalk : Leads p first last 1 pc₁ _ _ _ :=
    leads_take htest (by simp [Cell.empty, tempC]) hCmem hAmem hC' (Function.update_self ..)
      (by omega) htarget
  have hadd : pc₁ + 1 = pc₂ := by omega
  rw [hcopy, Function.update_idem, hadd] at htestWalk
  exact hfirstWalk.trans htestWalk fun _ => ⟨by omega, by omega⟩

/-- A comparison goes to its target exactly if its condition holds. -/
theorem leads_branch {cond : Condition}
    (hcells : p.Holds o ((Code.operation (.branch cond a b target)).cells o)) (ho : 0 ≤ o)
    (hroom : o + 14 < maxPc) (htarget : target < maxPc) (hσ : σ.Ready) (ha : σ.Operand a x)
    (hb : σ.Operand b y) :
    ∃ n σ', (0 < n ∧ n ≤ 14) ∧
      Leads p o (o + 14) n o σ (if cond.Holds x y then target else o + 14) σ' ∧ σ.Spares σ' := by
  rw [Code.cells_branch] at hcells
  have hexits : (Code.exits cond target (o + 14)).1 < maxPc ∧
      (Code.exits cond target (o + 14)).2 < maxPc := by
    cases cond <;> exact ⟨by assumption, by assumption⟩
  have hgoal : (if cond.Holds x y then target else o + 14) =
      if Byte.copied y < Byte.copied x then (Code.exits cond target (o + 14)).1
      else (Code.exits cond target (o + 14)).2 := by
    cases cond with
    | greater => rfl
    | atMost => simp only [Condition.Holds, Code.exits, ← Int.not_lt, ite_not]
  rw [hgoal]
  generalize (Code.exits cond target (o + 14)).1 = greater at *
  generalize (Code.exits cond target (o + 14)).2 = atMost at *
  have hscratch : Store.IsScratch tempA ∧ Store.IsScratch tempB ∧ Store.IsScratch tempC := by
    simp [Store.IsScratch, tempA, tempB, tempC]
  rcases leads_start hcells.left ho hroom hσ ha hb with ⟨σ₁, hstart, hspares, hu, hzero, hw⟩
  have hσ₁ := hspares.ready hσ
  have hu' := Byte.copied_mem ha.min ha.max
  have hw' := Byte.copied_mem hb.min hb.max
  generalize Byte.copied x = u at *
  have hAmem : 0 ≤ tempA ∧ tempA < ioPort := by decide
  have hBmem : 0 ≤ tempB ∧ tempB < ioPort := by decide
  have hnegate : Byte.fold (0 - -u) = u := by
    rw [Int.sub_neg, Int.zero_add]
    exact Byte.fold_of_mem (by omega) (by omega)
  have hspares₂ := hspares.update hscratch.2.1 u
  have hspares₃ := hspares₂.update hscratch.1 (Byte.copied y)
  have hC₂ : (Function.update σ₁ tempB (some u)) tempC = some (-Byte.copied y) := by
    rw [Function.update_of_ne (by decide), hw]
  have hB₃ : (Function.update (Function.update σ₁ tempB (some u)) tempA (some (Byte.copied y)))
      tempB = some u := by
    rw [Function.update_of_ne (by decide), Function.update_self]
  have hready := hspares₃.ready hσ
  have hzero₃ := hready.isSome_zero
  -- where both operands are on one side of zero, the last part decides
  have hlast : ∀ k, 0 < k → k ≤ 12 →
      ((0 < u ∧ 0 < Byte.copied y) ∨ (u ≤ 0 ∧ Byte.copied y ≤ 0)) →
      Leads p o (o + 14) k o σ (o + 12)
        (Function.update (Function.update σ₁ tempB (some u)) tempA (some (Byte.copied y))) →
      ∃ n σ', (0 < n ∧ n ≤ 14) ∧
        Leads p o (o + 14) n o σ (if Byte.copied y < u then greater else atMost) σ' ∧
        σ.Spares σ' := by
    intro k hpos hk hside hwalk
    rcases leads_same (hcells 12 _ rfl) (hcells 13 _ rfl) hroom hexits.1 hexits.2 hready
      (hb.spares hspares₃) hu' hB₃ hside with ⟨n, σ', hn, hrest, hspares'⟩
    exact ⟨k + n, σ', by omega, hwalk.trans hrest fun _ => ⟨by omega, by omega⟩,
      hspares₃.trans hspares'⟩
  have hgoto : ∀ {pc t : Int}, p.fetch pc = .subleq zero zero t → pc + 1 < maxPc → t < maxPc →
      Leads p o (o + 14) 1 pc _ t _ := fun hcell hpc ht => leads_goto hcell hzero₃ hpc ht
  rw [← hready.zero, Function.update_eq_self] at hgoto
  by_cases hpos : 0 < u
  · -- a positive operand is greater than one that is not
    have htest : Leads p o (o + 14) 1 (o + 5) σ₁ (o + 6) _ :=
      leads_take_of_pos (hcells 5 _ rfl) (by simp [Cell.empty, tempA]) hAmem hBmem hu hzero
        (by omega) (by omega) hnegate hpos (by omega)
    have hsign : Leads p o (o + 14) 2 (o + 6) _
        (if Byte.copied y ≤ 0 then greater else o + 8) _ :=
      leads_sign (hcells 6 _ rfl) (hcells 7 _ rfl) (by omega) (by omega) (by omega) (by omega)
        hroom hexits.1 (hspares₂.scratch _ hscratch.1) hC₂ hw'
    have hwalk := (hstart.trans htest fun _ => ⟨by omega, by omega⟩).trans hsign
      fun _ => ⟨by omega, by omega⟩
    by_cases hw₀ : Byte.copied y ≤ 0
    · rw [if_pos hw₀] at hwalk
      rw [if_pos (by omega)]
      exact ⟨_, _, by omega, hwalk, hspares₃⟩
    · rw [if_neg hw₀] at hwalk
      exact hlast _ (by omega) (by omega) (Or.inl ⟨hpos, by omega⟩) (hwalk.trans
        (hgoto (hcells 8 _ rfl) (by omega) (by omega)) fun _ => ⟨by omega, by omega⟩)
  · -- one that is not positive is at most a positive one
    have htest : Leads p o (o + 14) 1 (o + 5) σ₁ (o + 9) _ :=
      leads_take_of_le (hcells 5 _ rfl) (by simp [Cell.empty, tempA]) hAmem hBmem hu hzero
        (by omega) (by omega) hnegate (by omega)
    have hsign : Leads p o (o + 14) 2 (o + 9) _
        (if Byte.copied y ≤ 0 then o + 12 else o + 11) _ :=
      leads_sign (hcells 9 _ rfl) (hcells 10 _ rfl) (by omega) (by omega) (by omega) (by omega)
        hroom (by omega) (hspares₂.scratch _ hscratch.1) hC₂ hw'
    have hwalk := (hstart.trans htest fun _ => ⟨by omega, by omega⟩).trans hsign
      fun _ => ⟨by omega, by omega⟩
    by_cases hw₀ : Byte.copied y ≤ 0
    · rw [if_pos hw₀] at hwalk
      exact hlast _ (by omega) (by omega) (Or.inr ⟨by omega, hw₀⟩) hwalk
    · rw [if_neg hw₀] at hwalk
      rw [if_neg (by omega)]
      exact ⟨_, _, by omega, hwalk.trans (hgoto (hcells 11 _ rfl) (by omega) hexits.2)
        fun _ => ⟨by omega, by omega⟩, hspares₃⟩

end Branches

end Machine

end Subleq
