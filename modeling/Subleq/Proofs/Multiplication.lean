import Mathlib
import Subleq.Proofs.Execution
import Subleq.Proofs.Loops
import Subleq.Proofs.SignedBytes

/-!
# Subleq.Proofs.Multiplication — what a multiplication gives, and how long it takes

A multiplication adds its first operand to zero, over and over, and every sum is folded by 255. What
comes of that is said here in terms of integers: a number congruent to the product modulo 255
(`Byte.product_modEq`), which is the product itself if that is a byte (`Byte.product_eq`).
-/

namespace Subleq

open Layout

/-! ## Repeated sums -/

namespace Byte

variable {x y : Int}

/-- The sum of so many copies of a number, folded each time. -/
theorem sums_modEq (x : Int) (n : Nat) :
    (fun r => fold (r + x))^[n] 0 ≡ n * x [ZMOD 255] := by
  induction n with
  | zero => simp
  | succ n ih =>
    rw [Function.iterate_succ_apply']
    have hstep : ((n + 1 : Nat) : Int) * x = n * x + x := by
      push_cast
      ring
    rw [hstep]
    exact (fold_modEq _).trans (ih.add_right x)

/-- Nothing is folded on the way to a byte: all sums before it lie between it and zero. -/
theorem sums_eq (n : Nat) (hmin : -128 ≤ n * x) (hmax : n * x ≤ 127) :
    (fun r => fold (r + x))^[n] 0 = n * x := by
  induction n with
  | zero => simp
  | succ n ih =>
    have hstep : ((n + 1 : Nat) : Int) * x = n * x + x := by
      push_cast
      ring
    rw [hstep] at hmin hmax ⊢
    have hn : (0 : Int) ≤ n := Int.natCast_nonneg n
    -- the sum before is no farther from zero than this one, and on the same side
    have hbefore : -128 ≤ n * x ∧ n * x ≤ 127 := by
      rcases Int.le_total 0 x with hx | hx
      · have hpos := Int.mul_nonneg hn hx
        omega
      · have hneg := Int.mul_nonpos_of_nonneg_of_nonpos hn hx
        omega
    rw [Function.iterate_succ_apply', ih hbefore.1 hbefore.2]
    exact fold_of_mem hmin hmax

theorem copied_modEq (x : Int) : copied x ≡ x [ZMOD 255] := by
  rw [Int.modEq_iff_dvd]
  have hcases := copied_cases x
  omega

theorem product_of_le (x : Int) (hy : copied y ≤ 0) : product x y = 0 := by
  have hnone : (copied y).toNat = 0 := by omega
  rw [product, hnone]
  rfl

theorem product_modEq (x : Int) (hy : 0 < copied y) : product x y ≡ x * y [ZMOD 255] := by
  have hsums := sums_modEq (copied x) (copied y).toNat
  rw [Int.toNat_of_nonneg (Int.le_of_lt hy)] at hsums
  have hfactors := (copied_modEq x).mul (copied_modEq y)
  rw [Int.mul_comm (copied x)] at hfactors
  exact hsums.trans hfactors

/-- A product of numbers that are their own copies is exact as long as it is a byte. -/
theorem product_eq (hx : x ≠ -128) (hy : 0 < y) (hmin : -128 ≤ x * y) (hmax : x * y ≤ 127) :
    product x y = x * y := by
  have hx' : copied x = x := if_neg hx
  have hy' : copied y = y := if_neg (by omega)
  have hcast : ((y.toNat : Nat) : Int) * x = x * y := by
    rw [Int.toNat_of_nonneg (Int.le_of_lt hy), Int.mul_comm]
  rw [product, hx', hy', ← hcast]
  exact sums_eq y.toNat (hcast ▸ hmin) (hcast ▸ hmax)

end Byte

namespace Machine

/-! ## Multiplication -/

/-- A machine at the first cell of a multiplication goes to the cell after the last one. That takes
ten instructions if the second factor is not positive, and the result is zero then. Otherwise it
takes four instructions for each time that the first factor is added and eight more; the result is a
signed byte congruent to the product modulo 255, and the product itself where that is a signed byte
and neither factor is -128. Nothing else is changed but the scratch cells. -/
theorem executes_mul {m : Machine} {a b c x y z : Int}
    (hblock : m.program.Holds m.pc ((Code.operation (.arith .mul a b c)).cells m.pc))
    (hstart : 0 ≤ m.pc) (hend : m.pc + 13 ≤ 255) (hwired : m.memory.Wired)
    (hready : m.store.Ready) (hneg : m.store negOne = some (-1)) (ha : m.store.Operand a x)
    (hb : m.store.Operand b y) (hc : m.store.Operand c z) :
    ∃ m', m.Executes (if Byte.copied y ≤ 0 then 10 else 4 * (Byte.copied y).toNat + 8) m'
        (m.pc + 13) ∧
      (Byte.copied y ≤ 0 → m'.store c = some 0) ∧
      (0 < Byte.copied y → ∃ r, m'.store c = some r ∧ Byte.IsSigned r ∧ r ≡ x * y [ZMOD 255] ∧
        (x ≠ -128 → y ≠ -128 → Byte.IsSigned (x * y) → r = x * y)) ∧
      ∀ k, k ≠ c → ¬Store.IsScratch k → m'.store k = m.store k := by
  rcases leads_mul hblock hstart (by simp only [maxPc]; omega) hready hneg ha hb hc with
    ⟨σ', hleads, hgives⟩
  have hm : m.At m.program m.pc m.store := ⟨rfl, hwired, rfl, fun _ => rfl⟩
  have hsize : (Code.operation (.arith .mul a b c)).size = 13 := rfl
  rcases hleads.executes hm
    (fun k hk hk' => ne_empty_of_holds hstart hblock hk (by rw [hsize]; exact hk')) (by omega) with
    ⟨m', hexecutes, hm'⟩
  have hstore : ∀ k, m'.store k = σ' k := hm'.cells
  refine ⟨m', hexecutes, ?_, ?_, ?_⟩
  · intro hle
    rw [hstore, hgives.result, Byte.product_of_le x hle]
  · intro hpos
    refine ⟨Byte.product x y, ?_, Byte.product_mem ha.min ha.max, Byte.product_modEq x hpos, ?_⟩
    · rw [hstore, hgives.result]
    · intro hx hy hproduct
      have hcopied : Byte.copied y = y := if_neg hy
      exact Byte.product_eq hx (hcopied ▸ hpos) hproduct.1 hproduct.2
  · intro k hk hscratch
    rw [hstore, hgives.frame k hk hscratch]

/-- A multiplication of a cell by itself, in the cell itself, at the end of the program store. -/
def squaring : Machine where
  program := AddressMap.ofEntries <|
    ((Code.operation (.arith .mul 249 249 249)).cells 242).mapIdx fun i cell => (242 + i, cell)
  memory :=
    { cells := AddressMap.ofEntries [(249, 12), (zero, 0), (tempC, 5), (tempB, -128), (tempA, 127),
        (negOne, -1)]
      input := some (Input.ofScript [])
      output := some "out" }
  pc := 242

theorem executes_mul_squaring :
    squaring.program.Holds squaring.pc
        ((Code.operation (.arith .mul 249 249 249)).cells squaring.pc) ∧
      squaring.store.Ready ∧ squaring.store.Operand 249 12 ∧
      ∃ m' r, squaring.Executes 56 m' 255 ∧ m'.store 249 = some r ∧ Byte.IsSigned r ∧
        r ≡ 144 [ZMOD 255] ∧ m'.store zero = some 0 := by
  have hblock : squaring.program.Holds squaring.pc
      ((Code.operation (.arith .mul 249 249 249)).cells squaring.pc) := by
    have hcells : ∀ i < 13, some (squaring.program.fetch (242 + (i : Nat))) =
        ((Code.operation (.arith .mul 249 249 249)).cells 242)[i]? := by decide +kernel
    intro i c hi
    have hi' : i < 13 := (List.getElem?_eq_some_iff.mp hi).1
    exact Option.some_inj.mp ((hcells i hi').trans hi)
  have hready : squaring.store.Ready := by
    have hscratch : ∀ a : Nat, a < 3 → (squaring.store (tempC + a)).isSome := by decide +kernel
    refine ⟨by decide +kernel, fun a ha => ?_⟩
    obtain ⟨i, rfl⟩ : ∃ i : Nat, a = tempC + i := ⟨(a - tempC).toNat, by have hge := ha.1; omega⟩
    refine hscratch i ?_
    have hle := ha.2
    simp only [tempC, tempA] at hle
    omega
  have hoperand : squaring.store.Operand 249 12 :=
    ⟨by decide, by decide, by decide +kernel, by decide, by decide⟩
  rcases executes_mul hblock (by decide) (by decide) ⟨rfl, rfl, rfl⟩ hready (by decide +kernel)
    hoperand hoperand hoperand with ⟨m', hexecutes, -, hpositive, hframe⟩
  rcases hpositive (by decide) with ⟨r, hr, hsigned, hmod, -⟩
  have hzero : m'.store zero = some 0 := by
    rw [hframe zero (by decide) (by simp [Store.IsScratch, zero, tempC]), hready.zero]
  exact ⟨hblock, hready, hoperand, m', r, hexecutes, hr, hsigned, hmod, hzero⟩

end Machine

end Subleq
