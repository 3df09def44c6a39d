import Mathlib
import Subleq.Proofs.Execution

/-!
# Subleq.Proofs.Residues — what moves, sums and differences give

The blocks of these operations have no branches. A sum and a difference come out as the
representative modulo 255 that lies in `[-127, 127]` (`executes_add_sub`), whatever is folded on the
way, so that taking an addend off a sum gives the other addend even where the sum is not a byte.

A move clears its destination before it reads its source. It copies a cell to any other cell, but
a cell that is moved to itself is lost (`executes_move`, `not_always_copied`).
-/

namespace Subleq

open Layout

/-! ## Representatives -/

namespace Byte

variable {r v x y : Int}

/-- The number is the representative of another one modulo 255. -/
def Represents (r v : Int) : Prop := (-127 ≤ r ∧ r ≤ 127) ∧ r ≡ v [ZMOD 255]

/-- There is exactly one representative. -/
theorem represents_iff : Represents r v ↔ r = residue v := by
  unfold Represents residue Int.ModEq
  omega

/-- In the range of representatives a number is its own. -/
theorem residue_of_mem (hmin : -127 ≤ v) (hmax : v ≤ 127) : residue v = v := by
  unfold residue
  omega

/-- What is added and taken off again leaves no trace. -/
theorem residue_add_sub (hx : -127 ≤ x) (hx' : x ≤ 127) : residue (residue (x + y) - y) = x := by
  unfold residue
  omega

end Byte

namespace Machine

variable {m m' : Machine} {a b c x y : Int}

/-! ## Sums and differences -/

/-- A cell has been given the representative of a number, the zero cell holds zero, and no other
cell has changed but the first two scratch cells. -/
structure Computes (m m' : Machine) (c v : Int) : Prop where
  result : ∀ r, m'.store c = some r ↔ Byte.Represents r v
  exact : -127 ≤ v → v ≤ 127 → m'.store c = some v
  zero : m'.store Layout.zero = some 0
  frame : ∀ k, k ≠ c → k ≠ tempA → k ≠ tempB → m'.store k = m.store k

theorem computes_of_gives {v : Int} (hready : m.store.Ready) (hc : c < zero)
    (hgives : m.store.Gives m'.store c (Byte.residue v))
    (hspared : m'.store tempC = m.store tempC) : m.Computes m' c v := by
  constructor
  case result =>
    intro r
    rw [hgives.result, Byte.represents_iff, Option.some_inj, eq_comm]
  case exact =>
    intro hmin hmax
    rw [hgives.result, Byte.residue_of_mem hmin hmax]
  case zero => exact (hgives.ready hready hc).zero
  case frame =>
    intro k hkc hkA hkB
    by_cases hscratch : Store.IsScratch k
    · -- the third scratch cell
      have hkC : k = tempC := by
        simp only [Store.IsScratch, tempA, tempB, tempC] at hscratch hkA hkB ⊢
        omega
      rw [hkC, hspared]
    · exact hgives.frame k hkc hscratch

section Sums

variable {p : Program} {o d z : Int} {σ : Store}

/-- A sum and then a difference, which takes the second addend off the sum. -/
theorem leads_add_sub (hadd : p.Holds o ((Code.operation (.arith .add a b c)).cells o))
    (hsub : p.Holds (o + 5) ((Code.operation (.arith .sub b c d)).cells (o + 5))) (ho : 0 ≤ o)
    (hroom : o + 14 < maxPc) (hσ : σ.Ready) (ha : σ.Operand a x) (hb : σ.Operand b y)
    (hc : σ.Destination c) (hd : σ.Destination d) (hcb : c ≠ b) (hx : -127 ≤ x) :
    ∃ σ', Leads p o (o + 14) 14 o σ (o + 14) σ' ∧ σ' d = some x := by
  rcases leads_add hadd ho (by omega) hσ ha hb hc with ⟨σ₁, hsum, hgives, -⟩
  have hb₁ : σ₁.Operand b y :=
    ⟨hb.nonneg, hb.lt, (hgives.frame b hcb.symm hb.not_isScratch).trans hb.eq, hb.min, hb.max⟩
  have hc₁ : σ₁.Operand c (Byte.residue (x + y)) := by
    have hmem := Byte.residue_mem (x + y)
    exact ⟨hc.nonneg, hc.lt, hgives.result, by omega, hmem.2⟩
  have hd₁ : σ₁.Destination d := ⟨hd.nonneg, hd.lt, hgives.isSome hd.isSome⟩
  rcases leads_sub hsub (by omega) (by omega) (hgives.ready hσ hc.lt) hb₁ hc₁ hd₁ with
    ⟨σ₂, hdifference, hgives₂, -⟩
  have hend : o + 5 + 9 = o + 14 := by omega
  rw [hend] at hdifference
  refine ⟨σ₂, (hsum.widen (Int.le_refl o) (by omega)).trans
    (hdifference.widen (by omega) (Int.le_refl _)) fun _ => ⟨by omega, by omega⟩, ?_⟩
  rw [hgives₂.result, Byte.residue_add_sub hx ha.max]

end Sums

/-- A machine at the first cell of an addition executes its five instructions, and one at the first
cell of a subtraction its nine; then the result is the representative of the sum or of the second
operand less the first, whichever cells the operands are. If the sum of two cells is followed by the
difference of the sum and the second of them, the first value comes out again. -/
theorem executes_add_sub (hstart : 0 ≤ m.pc) (hwired : m.memory.Wired) (hready : m.store.Ready)
    (ha : m.store.Operand a x) (hb : m.store.Operand b y) (hc : m.store.Destination c) :
    (m.program.Holds m.pc ((Code.operation (.arith .add a b c)).cells m.pc) → m.pc + 5 ≤ 255 →
      ∃ m', m.Executes 5 m' (m.pc + 5) ∧ m.Computes m' c (x + y)) ∧
    (m.program.Holds m.pc ((Code.operation (.arith .sub a b c)).cells m.pc) → m.pc + 9 ≤ 255 →
      ∃ m', m.Executes 9 m' (m.pc + 9) ∧ m.Computes m' c (y - x)) ∧
    ∀ d, m.store.Destination d → c ≠ b → -127 ≤ x →
      m.program.Holds m.pc ((Code.operation (.arith .add a b c)).cells m.pc) →
      m.program.Holds (m.pc + 5) ((Code.operation (.arith .sub b c d)).cells (m.pc + 5)) →
      m.pc + 14 ≤ 255 → ∃ m', m.Executes 14 m' (m.pc + 14) ∧ m'.store d = some x := by
  refine ⟨fun hblock hend => ?_, fun hblock hend => ?_, fun d hd hcb hx hadd hsub hend => ?_⟩
  · rcases leads_add hblock hstart (by simp only [maxPc]; omega) hready ha hb hc with
      ⟨σ', hleads, hgives, hspared⟩
    rcases hleads.exits_operation hblock hstart hwired rfl with ⟨m', hexits, rfl⟩
    exact ⟨m', hexits.executes, computes_of_gives hready hc.lt hgives (hspared tempC (by decide))⟩
  · rcases leads_sub hblock hstart (by simp only [maxPc]; omega) hready ha hb hc with
      ⟨σ', hleads, hgives, hspared⟩
    rcases hleads.exits_operation hblock hstart hwired rfl with ⟨m', hexits, rfl⟩
    exact ⟨m', hexits.executes, computes_of_gives hready hc.lt hgives hspared⟩
  · rcases leads_add_sub hadd hsub hstart (by simp only [maxPc]; omega) hready ha hb hc hd hcb hx with
      ⟨σ', hleads, hresult⟩
    have hcells : ∀ k, m.pc ≤ k → k < m.pc + 14 → m.program.fetch k ≠ .empty := by
      intro k hk hk'
      rcases Int.lt_or_le k (m.pc + 5) with hfirst | hsecond
      · exact ne_empty_of_holds hstart hadd hk hfirst
      · have hlt : k < m.pc + 5 + 9 := by omega
        exact ne_empty_of_holds (by omega) hsub hsecond hlt
    rcases hleads.executes (at_store hwired) hcells (by omega) with ⟨m', hexecutes, hm'⟩
    exact ⟨m', hexecutes, hm'.store_eq ▸ hresult⟩

/-- An addition in place, whose sum is no signed byte, and the subtraction that undoes it into the
second addend, at the end of the program store. -/
def undoing : Machine :=
  placed 241 ((Code.operation (.arith .add 249 248 249)).cells 241 ++
    (Code.operation (.arith .sub 248 249 248)).cells 246) ([(248, 60), (249, 100)] ++ reserved)

theorem holds_undoing :
    undoing.program.Holds 241 ((Code.operation (.arith .add 249 248 249)).cells 241) ∧
      undoing.program.Holds 246 ((Code.operation (.arith .sub 248 249 248)).cells 246) := by
  have hblocks : undoing.program.Holds 241 _ := holds_placed _ _ _
  have hnext : 241 + (((Code.operation (.arith .add 249 248 249)).cells 241).length : Int) = 246 := by
    rw [Code.length_cells]
    rfl
  exact ⟨hblocks.left, hnext ▸ hblocks.right⟩

/-- A subtraction of the least signed byte from the greatest. -/
def spanning : Machine :=
  placed 246 ((Code.operation (.arith .sub 249 248 247)).cells 246)
    ([(247, 9), (248, 127), (249, -128)] ++ reserved)

theorem executes_add_sub_undoing :
    (undoing.store.Ready ∧ undoing.store.Operand 249 100 ∧ undoing.store.Operand 248 60) ∧
      (spanning.store.Ready ∧ spanning.store.Operand 249 (-128) ∧ spanning.store.Operand 248 127) ∧
      (∃ m', undoing.Executes 5 m' 246 ∧ undoing.Computes m' 249 160) ∧
      (∃ m', spanning.Executes 9 m' 255 ∧ spanning.Computes m' 247 255) ∧
      ∃ m', undoing.Executes 14 m' 255 ∧ m'.store 248 = some 100 := by
  have hready : undoing.store.Ready := by decide +kernel
  have ha : undoing.store.Operand 249 100 := by decide +kernel
  have hb : undoing.store.Operand 248 60 := by decide +kernel
  have hready' : spanning.store.Ready := by decide +kernel
  have ha' : spanning.store.Operand 249 (-128) := by decide +kernel
  have hb' : spanning.store.Operand 248 127 := by decide +kernel
  have hc' : spanning.store.Operand 247 9 := by decide +kernel
  have hblock' : spanning.program.Holds 246 ((Code.operation (.arith .sub 249 248 247)).cells 246) :=
    holds_placed _ _ _
  rcases executes_add_sub (m := undoing) (by decide) (wired_placed ..) hready ha hb ha.destination with
    ⟨hsum, -, hundone⟩
  rcases executes_add_sub (m := spanning) (by decide) (wired_placed ..) hready' ha' hb'
    hc'.destination with ⟨-, hdifference, -⟩
  exact ⟨⟨hready, ha, hb⟩, ⟨hready', ha', hb'⟩, hsum holds_undoing.1 (by decide),
    hdifference hblock' (by decide), hundone 248 hb.destination (by decide) (by decide)
      holds_undoing.1 holds_undoing.2 (by decide)⟩

/-! ## Moves -/

/-- A machine at the first cell of a move executes its four instructions. Then any other cell than
the source has a copy of it; but the source has been cleared if it is the destination. -/
theorem executes_move (hblock : m.program.Holds m.pc ((Code.operation (.move a b)).cells m.pc))
    (hstart : 0 ≤ m.pc) (hend : m.pc + 4 ≤ 255) (hwired : m.memory.Wired)
    (hready : m.store.Ready) (ha : m.store.Operand a x) (hx : -127 ≤ x)
    (hb : m.store.Destination b) :
    ∃ m', m.Executes 4 m' (m.pc + 4) ∧
      (a ≠ b → m'.store b = some x ∧ m'.store a = some x) ∧ (a = b → m'.store b = some 0) ∧
      m'.store zero = some 0 ∧ ∀ k, k ≠ b → m'.store k = m.store k := by
  rcases leads_move hblock hstart (by simp only [maxPc]; omega) hready ha hb with
    ⟨σ', hleads, hgives, hspared⟩
  rcases hleads.exits_operation hblock hstart hwired rfl with ⟨m', hexits, rfl⟩
  have hframe : ∀ k, k ≠ b → m'.store k = m.store k := by
    intro k hkb
    by_cases hscratch : Store.IsScratch k
    · exact hspared k hscratch
    · exact hgives.frame k hkb hscratch
  have hresult := hgives.result
  have hcopied : Byte.copied x = x := if_neg (by omega)
  refine ⟨m', hexits.executes, fun hab => ⟨?_, ?_⟩, fun hab => ?_, (hgives.ready hready hb.lt).zero,
    hframe⟩
  · rw [hresult, if_neg hab, hcopied]
  · rw [hframe a hab, ha.eq]
  · rw [hresult, if_pos hab]

/-- The least number that is its own copy is moved, at the end of the program store. -/
def copying : Machine :=
  placed 251 ((Code.operation (.move 249 248)).cells 251) ([(248, 9), (249, -127)] ++ reserved)

theorem executes_move_copying :
    copying.program.Holds 251 ((Code.operation (.move 249 248)).cells 251) ∧
      copying.store.Ready ∧ copying.store.Operand 249 (-127) ∧
      ∃ m', copying.Executes 4 m' 255 ∧ m'.store 248 = some (-127) ∧ m'.store 249 = some (-127) := by
  have hblock : copying.program.Holds 251 ((Code.operation (.move 249 248)).cells 251) :=
    holds_placed _ _ _
  have hready : copying.store.Ready := by decide +kernel
  have ha : copying.store.Operand 249 (-127) := by decide +kernel
  have hb : copying.store.Operand 248 9 := by decide +kernel
  rcases executes_move (m := copying) hblock (by decide) (by decide) (wired_placed ..) hready ha
    (by decide) hb.destination with ⟨m', hexecutes, hcopied, -⟩
  rcases hcopied (by decide) with ⟨hresult, hsource⟩
  exact ⟨hblock, hready, ha, m', hexecutes, hresult, hsource⟩

/-- A cell is moved to itself, in a data store with values in all its cells. -/
def overwriting : Machine :=
  placed 1 ((Code.operation (.move 249 249)).cells 1)
    (((List.range 255).map Nat.cast).map fun k => (k, if k = zero then 0 else 5))

theorem store_overwriting {k : Int} (hk : 0 ≤ k) (hk' : k < ioPort) :
    overwriting.store k = some (if k = zero then 0 else 5) := by
  have hmem : k ∈ (List.range 255).map (Nat.cast : Nat → Int) := by
    simp only [ioPort] at hk'
    exact List.mem_map.mpr ⟨k.toNat, List.mem_range.mpr (by omega), by omega⟩
  simp only [store, overwriting, placed, AddressMap.get?_ofEntries_map, if_pos hmem]

theorem ready_overwriting : overwriting.store.Ready := by
  have hscratch : ∀ k, 0 ≤ k → k < ioPort → (overwriting.store k).isSome := by
    intro k hk hk'
    rw [store_overwriting hk hk']
    rfl
  exact Store.ready_iff.mpr ⟨store_overwriting (by decide) (by decide),
    hscratch tempC (by decide) (by decide), hscratch tempB (by decide) (by decide),
    hscratch tempA (by decide) (by decide)⟩

/-- Moving is not copying where source and destination are one cell, even if all cells have values
that are their own copies. -/
theorem not_always_copied : ¬∀ (m : Machine) (a b : Int),
    m.program.Holds m.pc ((Code.operation (.move a b)).cells m.pc) → 0 ≤ m.pc → m.pc + 4 ≤ 255 →
    m.memory.Wired → m.store zero = some 0 →
    (∀ k, 0 ≤ k → k < ioPort → ∃ v, m.store k = some v ∧ -127 ≤ v ∧ v ≤ 127) →
    0 ≤ a → a < zero → 0 ≤ b → b < zero →
    ∃ n m', m.Executes n m' (m.pc + 4) ∧ m'.store b = m.store a ∧ m'.store a = m.store a ∧
      m'.store zero = some 0 ∧ ∀ k, k ≠ b → m'.store k = m.store k := by
  intro hall
  have hstored : ∀ k, 0 ≤ k → k < ioPort →
      ∃ v, overwriting.store k = some v ∧ -127 ≤ v ∧ v ≤ 127 := by
    intro k hk hk'
    refine ⟨_, store_overwriting hk hk', ?_⟩
    split <;> decide
  rcases hall overwriting 249 249 (holds_placed _ _ _) (by decide) (by decide) (wired_placed ..)
    (store_overwriting (by decide) (by decide)) hstored (by decide) (by decide) (by decide)
    (by decide) with ⟨n, m', hexecutes, hcopy, -⟩
  -- what the block does make of the cell
  have ha : overwriting.store.Operand 249 5 :=
    ⟨by decide, by decide, store_overwriting (by decide) (by decide), by decide, by decide⟩
  have hblock : overwriting.program.Holds 1 ((Code.operation (.move 249 249)).cells 1) :=
    holds_placed _ _ _
  rcases leads_move hblock (by decide) (by decide) ready_overwriting ha ha.destination with
    ⟨σ', hleads, hgives, -⟩
  rcases Leads.exits_operation (m := overwriting) hleads hblock (by decide) (wired_placed ..) rfl with
    ⟨m₁, hexits, rfl⟩
  rcases hexecutes.unique hexits.executes (by decide) with ⟨-, rfl⟩
  have hcleared := hgives.result
  rw [hcopy, ha.eq] at hcleared
  simp at hcleared

end Machine

end Subleq
