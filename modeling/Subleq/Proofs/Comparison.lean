import Mathlib
import Subleq.Proofs.Execution

/-!
# Subleq.Proofs.Comparison — which way a comparison goes

A comparison subtracts its operands only where they lie on one side of zero. So it decides exactly
as the integers do, on the whole range in which a number is its own copy (`exits_branch`): it goes
to its target or to the cell after its block, and the two conditions never go the same way.
-/

namespace Subleq

open Layout

namespace Condition

variable {x y : Int}

/-- What a condition says of two integers. -/
def Orders (cond : Condition) (x y : Int) : Prop :=
  match cond with
  | greater => y < x
  | atMost => x ≤ y

instance (cond : Condition) (x y : Int) : Decidable (cond.Orders x y) :=
  match cond with
  | .greater => inferInstanceAs (Decidable (_ < _))
  | .atMost => inferInstanceAs (Decidable (_ ≤ _))

/-- The other condition. -/
def opposite : Condition → Condition
  | greater => atMost
  | atMost => greater

theorem orders_opposite (cond : Condition) (x y : Int) :
    cond.opposite.Orders x y ↔ ¬cond.Orders x y := by
  cases cond with
  | greater => exact Int.not_lt.symm
  | atMost => exact Int.not_le.symm

/-- A branch is taken as the integers say where both are their own copies. -/
theorem holds_iff (cond : Condition) (hx : -127 ≤ x) (hy : -127 ≤ y) :
    cond.Holds x y ↔ cond.Orders x y := by
  have hx' : Byte.copied x = x := if_neg (by omega)
  have hy' : Byte.copied y = y := if_neg (by omega)
  cases cond with
  | greater => simp only [Holds, Orders, hx', hy']
  | atMost => simp only [Holds, Orders, hx', hy']

end Condition

namespace Machine

variable {m : Machine} {cond : Condition} {a b target x y : Int}

/-- A machine at the first cell of a comparison leaves the block where the integers say. -/
theorem exits_orders
    (hblock : m.program.Holds m.pc ((Code.operation (.branch cond a b target)).cells m.pc))
    (hstart : 0 ≤ m.pc) (hend : m.pc + 14 ≤ 255) (htarget : target ≤ 255)
    (hwired : m.memory.Wired) (hready : m.store.Ready) (ha : m.store.Operand a x)
    (hb : m.store.Operand b y) (hx : -127 ≤ x) (hy : -127 ≤ y) :
    ∃ n m', n ≤ 14 ∧
      m.Exits n m' (m.pc + 14) (if cond.Orders x y then target else m.pc + 14) ∧
      m.store.Spares m'.store := by
  rcases leads_branch hblock hstart (by simp only [maxPc]; omega) (by simp only [maxPc]; omega) hready
    ha hb with ⟨n, σ', hn, hleads, hspares⟩
  simp only [cond.holds_iff hx hy] at hleads
  have hsize : (Code.operation (.branch cond a b target)).size = 14 := Code.size_operation _
  rcases hleads.exits_operation hblock hstart hwired (by rw [hsize]; rfl) with ⟨m', hexits, rfl⟩
  exact ⟨n, m', hn.2, hexits, hspares⟩

/-- A machine at the first cell of a comparison leaves the block after at most fourteen instructions:
to the target if the condition holds of the operands, and to the cell after the block otherwise.
Nothing is changed but the scratch cells. The other condition, in the same place and with the same
values, goes the other way. -/
theorem exits_branch
    (hblock : m.program.Holds m.pc ((Code.operation (.branch cond a b target)).cells m.pc))
    (hstart : 0 ≤ m.pc) (hend : m.pc + 14 ≤ 255) (htarget : target ≤ 255)
    (hwired : m.memory.Wired) (hready : m.store.Ready) (ha : m.store.Operand a x)
    (hb : m.store.Operand b y) (hx : -127 ≤ x) (hy : -127 ≤ y) :
    (∃ n m', n ≤ 14 ∧
      m.Exits n m' (m.pc + 14) (if cond.Orders x y then target else m.pc + 14) ∧
      m'.store zero = some 0 ∧ ∀ k, ¬Store.IsScratch k → m'.store k = m.store k) ∧
    ∀ m₂ : Machine, m₂.pc = m.pc → m₂.store = m.store → m₂.memory.Wired →
      m₂.program.Holds m.pc ((Code.operation (.branch cond.opposite a b target)).cells m.pc) →
      ∃ n m₂', n ≤ 14 ∧
        m₂.Exits n m₂' (m.pc + 14) (if cond.Orders x y then m.pc + 14 else target) := by
  constructor
  · rcases exits_orders hblock hstart hend htarget hwired hready ha hb hx hy with
      ⟨n, m', hn, hexits, hspares⟩
    exact ⟨n, m', hn, hexits, (hspares.ready hready).zero, hspares.frame⟩
  · intro m₂ hpc hstore hwired₂ hblock₂
    rw [← hpc] at hblock₂ hstart hend ⊢
    rw [← hstore] at hready ha hb
    rcases exits_orders hblock₂ hstart hend htarget hwired₂ hready ha hb hx hy with
      ⟨n, m₂', hn, hexits, -⟩
    simp only [Condition.orders_opposite, ite_not] at hexits
    exact ⟨n, m₂', hn, hexits⟩

/-- A comparison of the numbers that lie farthest apart, with a target inside of its own block. -/
def parting (cond : Condition) : Machine :=
  placed 241 ((Code.operation (.branch cond 249 248 245)).cells 241)
    ([(248, 127), (249, -127)] ++ reserved)

theorem exits_branch_parting :
    (parting .greater).store.Ready ∧ (parting .greater).store.Operand 249 (-127) ∧
      (parting .greater).store.Operand 248 127 ∧
      (∃ n m', n ≤ 14 ∧ (parting .greater).Exits n m' 255 255 ∧ m'.store zero = some 0 ∧
        m'.store 249 = some (-127)) ∧
      ∃ n m', n ≤ 14 ∧ (parting .atMost).Exits n m' 255 245 := by
  have hready : (parting .greater).store.Ready := by decide +kernel
  have ha : (parting .greater).store.Operand 249 (-127) := by decide +kernel
  have hb : (parting .greater).store.Operand 248 127 := by decide +kernel
  rcases exits_branch (m := parting .greater) (holds_placed _ _ _) (by decide) (by decide) (by decide)
    (wired_placed ..) hready ha hb (by decide) (by decide) with
    ⟨⟨n, m', hn, hexits, hzero, hframe⟩, hopposite⟩
  have hkept : m'.store 249 = some (-127) := by
    rw [hframe 249 (by decide)]
    exact ha.eq
  exact ⟨hready, ha, hb, ⟨n, m', hn, hexits, hzero, hkept⟩,
    hopposite (parting .atMost) rfl rfl (wired_placed ..) (holds_placed _ _ _)⟩

end Machine

end Subleq
