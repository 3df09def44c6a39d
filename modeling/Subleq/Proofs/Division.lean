import Mathlib
import Subleq.Proofs.Execution
import Subleq.Proofs.Loops

/-!
# Subleq.Proofs.Division — what a division gives, and when it ends

A division counts how often its first operand comes off a copy of the second one. The count lags
behind: the loop is left without counting when nothing positive remains, and a remainder of exactly
zero is counted after it. For a positive divisor and a dividend that is not negative that makes the
quotient rounded down, be the dividend a multiple of the divisor, smaller than the divisor or zero
(`executes_div`).

What is left of the dividend shrinks only under a positive divisor. Under a negative one it grows
until it is folded to the other end of the range, so that there, too, nothing positive is left at
last. Only where it does not change, the division goes on for ever (`reaches_end_iff`).
-/

namespace Subleq

open Layout

namespace Machine

/-- A machine at the first cell of a division by a positive number goes to the cell after the last
one, and the result is the quotient rounded down. Nothing else is changed but the scratch cells. -/
theorem executes_div {m : Machine} {a b c x y z : Int}
    (hblock : m.program.Holds m.pc ((Code.operation (.arith .div a b c)).cells m.pc))
    (hstart : 0 ≤ m.pc) (hend : m.pc + 14 ≤ 255) (hwired : m.memory.Wired)
    (hready : m.store.Ready) (hneg : m.store negOne = some (-1)) (ha : m.store.Operand a x)
    (hb : m.store.Operand b y) (hc : m.store.Operand c z) (hx : 0 < x) (hy : 0 ≤ y) :
    ∃ n m', m.Executes n m' (m.pc + 14) ∧ m'.store c = some (y / x) ∧ m'.store zero = some 0 ∧
      ∀ k, k ≠ c → ¬Store.IsScratch k → m'.store k = m.store k := by
  have hquotient : Byte.divide? (Byte.copied x) (Byte.copied y) = some (y / x) := by
    have hx' : Byte.copied x = x := if_neg (by omega)
    have hy' : Byte.copied y = y := if_neg (by omega)
    rw [hx', hy', Byte.divide?_of_pos hx hy]
  rcases leads_div hblock hstart (by simp only [maxPc]; omega) hready hneg ha hb hc hquotient with
    ⟨n, σ', -, hleads, hgives⟩
  rcases hleads.exits_operation hblock hstart hwired rfl with ⟨m', hexits, rfl⟩
  exact ⟨n, m', hexits.executes, hgives.result, (hgives.ready hready hc.lt).zero, hgives.frame⟩

/-- A division of a multiple into the cell of the divisor, at the end of the program store. -/
def sharing : Machine :=
  placed 241 ((Code.operation (.arith .div 249 248 249)).cells 241)
    ([(248, 12), (249, 4)] ++ reserved)

theorem executes_div_sharing :
    sharing.program.Holds 241 ((Code.operation (.arith .div 249 248 249)).cells 241) ∧
      sharing.store.Ready ∧ sharing.store negOne = some (-1) ∧ sharing.store.Operand 249 4 ∧
      sharing.store.Operand 248 12 ∧
      ∃ n m', sharing.Executes n m' 255 ∧ m'.store 249 = some 3 ∧ m'.store zero = some 0 ∧
        m'.store 248 = some 12 := by
  have hready : sharing.store.Ready := by decide +kernel
  have hneg : sharing.store negOne = some (-1) := by decide +kernel
  have ha : sharing.store.Operand 249 4 := by decide +kernel
  have hb : sharing.store.Operand 248 12 := by decide +kernel
  have hblock : sharing.program.Holds 241 ((Code.operation (.arith .div 249 248 249)).cells 241) :=
    holds_placed _ _ _
  rcases executes_div (m := sharing) hblock (by decide) (by decide) (wired_placed ..) hready hneg ha
    hb ha (by decide) (by decide) with ⟨n, m', hexecutes, hresult, hzero, hframe⟩
  have hdividend : m'.store 248 = some 12 := by
    rw [hframe 248 (by decide) (by decide)]
    exact hb.eq
  exact ⟨hblock, hready, hneg, ha, hb, n, m', hexecutes, hresult, hzero, hdividend⟩

/-! ## When a division ends -/

/-- The machine comes to an address. -/
def Reaches (m : Machine) (pc : Int) : Prop := ∃ n m', Runs n m m' ∧ m'.pc = pc

/-- The machine makes any number of steps, and each time it is at an address from `first` on and
before `last`. -/
def Circles (m : Machine) (first last : Int) : Prop :=
  ∀ n, ∃ m', Runs n m m' ∧ first ≤ m'.pc ∧ m'.pc < last

theorem Executes.reaches {n : Nat} {m m' : Machine} {last : Int} (h : m.Executes n m' last) :
    m.Reaches last :=
  ⟨n, m', h.runs, h.pc⟩

theorem Circles.not_reaches {m : Machine} {first last : Int} (h : m.Circles first last) :
    ¬m.Reaches last := by
  rintro ⟨n, m', hruns, hpc⟩
  rcases h n with ⟨m₁, hruns₁, -, hlt⟩
  have hsame : m' = m₁ := hruns.eq_after.trans hruns₁.eq_after.symm
  rw [hsame] at hpc
  omega

section Div

variable {m : Machine} {a b c x y z : Int}
  (hblock : m.program.Holds m.pc ((Code.operation (.arith .div a b c)).cells m.pc))
  (hstart : 0 ≤ m.pc) (hend : m.pc + 14 ≤ 255) (hwired : m.memory.Wired)
  (hready : m.store.Ready) (hneg : m.store negOne = some (-1)) (ha : m.store.Operand a x)
  (hb : m.store.Operand b y) (hc : m.store.Operand c z)

include hblock hstart hend hwired hready hneg ha hb hc

/-- A division of anything but a positive number by zero comes to its end. -/
theorem exists_executes_div (h : ¬(x = 0 ∧ 0 < Byte.copied y)) :
    ∃ n m', m.Executes n m' (m.pc + 14) := by
  have hx := Byte.copied_cases x
  have hsome : Byte.divide? (Byte.copied x) (Byte.copied y) ≠ none := by
    rw [Ne, Byte.divide?_eq_none_iff]
    omega
  rcases Option.ne_none_iff_exists'.mp hsome with ⟨q, hq⟩
  rcases leads_div hblock hstart (by simp only [maxPc]; omega) hready hneg ha hb hc hq with
    ⟨n, σ', -, hleads, -⟩
  rcases hleads.exits_operation hblock hstart hwired rfl with ⟨m', hexits, -⟩
  exact ⟨n, m', hexits.executes⟩

/-- A division of a positive number by zero goes on and on inside its block. -/
theorem circles_div (h : x = 0 ∧ 0 < Byte.copied y) : m.Circles m.pc (m.pc + 14) := by
  have hnone : Byte.divide? (Byte.copied x) (Byte.copied y) = none := by
    rw [Byte.divide?_eq_none_iff, h.1]
    exact ⟨rfl, h.2⟩
  intro n
  rcases runs_div hblock hstart (by simp only [maxPc]; omega) hready hneg ha hb hc hnone
    (at_store hwired) n with ⟨m', hruns, hinside⟩
  refine ⟨m', hruns, ?_⟩
  rcases Nat.eq_zero_or_pos n with rfl | hpos
  · have hsame : m' = m := hruns.eq_after
    rw [hsame]
    omega
  · have hin := hinside hpos
    omega

end Div

/-- From the first cell of a division the machine comes to the cell after the last one exactly
unless something positive is divided by zero, where a dividend of -128 counts as 127. If it does not
come there, it stays in the block for ever. So every division by a negative number ends, and so does
every division of a negative one, but for -128 by zero; and a division by zero goes on for ever
exactly if the dividend is positive or -128. -/
theorem reaches_end_iff {m : Machine} {a b c x y z : Int}
    (hblock : m.program.Holds m.pc ((Code.operation (.arith .div a b c)).cells m.pc))
    (hstart : 0 ≤ m.pc) (hend : m.pc + 14 ≤ 255) (hwired : m.memory.Wired)
    (hready : m.store.Ready) (hneg : m.store negOne = some (-1)) (ha : m.store.Operand a x)
    (hb : m.store.Operand b y) (hc : m.store.Operand c z) :
    (m.Reaches (m.pc + 14) ↔ ¬(x = 0 ∧ 0 < Byte.copied y)) ∧
    ((∃ n m', m.Executes n m' (m.pc + 14)) ∨ m.Circles m.pc (m.pc + 14)) ∧
    (x < 0 → m.Reaches (m.pc + 14)) ∧
    (y < 0 → ¬(x = 0 ∧ y = -128) → m.Reaches (m.pc + 14)) ∧
    (x = 0 → (m.Circles m.pc (m.pc + 14) ↔ 0 < y ∨ y = -128)) := by
  have hy := Byte.copied_cases y
  have hends : ¬(x = 0 ∧ 0 < Byte.copied y) → ∃ n m', m.Executes n m' (m.pc + 14) :=
    exists_executes_div hblock hstart hend hwired hready hneg ha hb hc
  have hcircles : x = 0 ∧ 0 < Byte.copied y → m.Circles m.pc (m.pc + 14) :=
    circles_div hblock hstart hend hwired hready hneg ha hb hc
  have hreaches : ¬(x = 0 ∧ 0 < Byte.copied y) → m.Reaches (m.pc + 14) := by
    intro h
    rcases hends h with ⟨n, m', hexecutes⟩
    exact hexecutes.reaches
  refine ⟨⟨fun hreach h => (hcircles h).not_reaches hreach, hreaches⟩, ?_, fun hx => ?_,
    fun hlt hne => ?_, fun hx => ⟨fun hcircle => ?_, fun hpos => ?_⟩⟩
  · by_cases h : x = 0 ∧ 0 < Byte.copied y
    · exact Or.inr (hcircles h)
    · exact Or.inl (hends h)
  · exact hreaches (by omega)
  · exact hreaches (by omega)
  · -- what never comes to the end divides something positive
    by_contra hpos
    exact hcircle.not_reaches (hreaches (by omega))
  · exact hcircles (by omega)

/-- A division that has the cell of its result in common with its divisor. -/
def dividing (x y : Int) : Machine :=
  placed 241 ((Code.operation (.arith .div 249 248 249)).cells 241)
    ([(248, y), (249, x)] ++ reserved)

theorem reaches_end_iff_dividing :
    (dividing (-1) 1).store.Operand 249 (-1) ∧ (dividing (-1) 1).store.Operand 248 1 ∧
      (dividing (-1) 1).Reaches 255 ∧
      (dividing 0 (-128)).store.Operand 249 0 ∧ (dividing 0 (-128)).store.Operand 248 (-128) ∧
      (dividing 0 (-128)).Circles 241 255 := by
  have ha : (dividing (-1) 1).store.Operand 249 (-1) := by decide +kernel
  have hb : (dividing (-1) 1).store.Operand 248 1 := by decide +kernel
  have hblock : ∀ x y, (dividing x y).program.Holds (dividing x y).pc
      ((Code.operation (.arith .div 249 248 249)).cells (dividing x y).pc) :=
    fun _ _ => holds_placed _ _ _
  have hup := reaches_end_iff (hblock (-1) 1) (by decide) (by decide) (wired_placed ..)
    (by decide +kernel) (by decide +kernel) ha hb ha
  have ha' : (dividing 0 (-128)).store.Operand 249 0 := by decide +kernel
  have hb' : (dividing 0 (-128)).store.Operand 248 (-128) := by decide +kernel
  have hforever := reaches_end_iff (hblock 0 (-128)) (by decide) (by decide) (wired_placed ..)
    (by decide +kernel) (by decide +kernel) ha' hb' ha'
  exact ⟨ha, hb, hup.2.2.1 (by decide), ha', hb', (hforever.2.2.2.2 rfl).mpr (Or.inr rfl)⟩

end Machine

end Subleq
