import Mathlib
import Subleq.Proofs.Blocks

/-!
# Subleq.Proofs.Loops — products and quotients

The blocks of a multiplication and of a division copy their operands to scratch cells, clear the
result, and go through a loop. What a loop does is proved by induction on how often it is gone
through:

* a multiplication counts its second operand down in `tempB` (`leads_mulLoop`);
* a division takes its first operand off `tempB` and counts in the result; that goes down to zero if
  the divisor is positive (`leads_down`), and up to the end of the range if it is negative
  (`leads_up`). Nothing comes off if it is zero, and then there is no end to it (`stays_div`).
-/

namespace Subleq

open Layout

namespace Store

variable {σ σ' : Store} {a c r v x : Int}

/-- What a cell that is no scratch cell is given. -/
theorem Ready.gives_update (h : σ.Ready) (c r : Int) :
    σ.Gives (Function.update σ c (some r)) c r := by
  refine ⟨Function.update_self .., fun a ha _ => Function.update_of_ne ha .., fun a ha => ?_⟩
  rw [Function.update_apply]
  split
  · rfl
  · exact h.scratch a ha

/-- Whatever is put into a scratch cell afterwards. -/
theorem Gives.update (h : σ.Gives σ' c r) (ha : IsScratch a) (hc : ¬IsScratch c) (v : Int) :
    σ.Gives (Function.update σ' a (some v)) c r := by
  have hne : ∀ k, ¬IsScratch k → k ≠ a := by
    intro k hk heq
    exact hk (heq ▸ ha)
  refine ⟨?_, fun k hk hscratch => ?_, fun k hk => ?_⟩
  · rw [Function.update_of_ne (hne c hc), h.result]
  · rw [Function.update_of_ne (hne k hscratch), h.frame k hk hscratch]
  · rw [Function.update_apply]
    split
    · rfl
    · exact h.scratch k hk

/-- The last value counts. -/
theorem Gives.trans {σ'' : Store} {r' : Int} (h : σ.Gives σ' c r) (h' : σ'.Gives σ'' c r') :
    σ.Gives σ'' c r' :=
  ⟨h'.result, fun a ha hs => (h'.frame a ha hs).trans (h.frame a ha hs), h'.scratch⟩

theorem Spares.gives (h : σ.Spares σ') (hc : σ c = some r) (hs : ¬IsScratch c) : σ.Gives σ' c r :=
  ⟨(h.frame c hs).trans hc, fun a _ ha => h.frame a ha, h.scratch⟩

end Store

namespace Machine

variable {p : Program} {o a b c x y z u t q r : Int} {σ : Store}

/-! ## Before the loops -/

section Starts

-- Values of cells after a row of subtractions, by going through the row.
attribute [local simp] Store.takes Store.take Store.val Function.update_apply zero negOne tempA
  tempB tempC Store.IsScratch

theorem leads_mulStart
    (hcells : p.Holds o (straight o [(tempA, tempA), (tempB, tempB), (tempC, tempC), (b, tempA),
      (tempA, tempB), (negOne, tempC), (tempA, tempA), (a, tempA), (c, c)])) (ho : 0 ≤ o)
    (hroom : o + 13 < maxPc) (hσ : σ.Ready) (hneg : σ negOne = some (-1)) (ha : σ.Operand a x)
    (hb : σ.Operand b y) (hc : σ.Operand c z) :
    ∃ σ', Leads p o (o + 13) 9 o σ (o + 9) σ' ∧ σ.Gives σ' c 0 ∧ σ' tempA = some (-Byte.copied x) ∧
      σ' tempB = some (Byte.copied y) ∧ σ' tempC = some 1 := by
  have hscratch : Store.IsScratch tempA ∧ Store.IsScratch tempB ∧ Store.IsScratch tempC := by
    simp
  have hA := hσ.stores (.inr hscratch.1)
  have hB := hσ.stores (.inr hscratch.2.1)
  have hC := hσ.stores (.inr hscratch.2.2)
  have hN : σ.Stores negOne := ⟨by decide, by decide, by rw [hneg]; rfl⟩
  have hx := Byte.fold_neg ha.min ha.max
  have hy := Byte.fold_neg_twice hb.min hb.max
  have hone : Byte.fold 1 = 1 := rfl
  have hn : σ 254 = some (-1) := hneg
  refine ⟨_, leads_straight _ hcells ho (Int.le_refl o) (by simp) hroom ?_,
    hσ.gives_takes ?_ ?_ ?_, ?_, ?_, ?_⟩
  · simp only [List.forall_mem_cons, ha.stores, hb.stores, hc.stores, hA, hB, hC, hN]
    simp
  · simp
  · simpa [hc.ne] using hσ.zero
  · simp
  · simp [ha.ne, hc.ne, ha.eq, hx]
  · simp [hb.ne, hc.ne, hb.eq, hy]
  · simp [hc.ne, hn, hone]

theorem leads_divStart
    (hcells : p.Holds o (straight o [(tempA, tempA), (tempB, tempB), (tempC, tempC), (b, tempA),
      (tempA, tempB), (tempA, tempA), (a, tempA), (tempA, tempC), (c, c)])) (ho : 0 ≤ o)
    (hroom : o + 14 < maxPc) (hσ : σ.Ready) (ha : σ.Operand a x) (hb : σ.Operand b y)
    (hc : σ.Operand c z) :
    ∃ σ', Leads p o (o + 14) 9 o σ (o + 9) σ' ∧ σ.Gives σ' c 0 ∧
      σ' tempB = some (Byte.copied y) ∧ σ' tempC = some (Byte.copied x) := by
  have hscratch : Store.IsScratch tempA ∧ Store.IsScratch tempB ∧ Store.IsScratch tempC := by
    simp
  have hA := hσ.stores (.inr hscratch.1)
  have hB := hσ.stores (.inr hscratch.2.1)
  have hC := hσ.stores (.inr hscratch.2.2)
  have hx := Byte.fold_neg_twice ha.min ha.max
  have hy := Byte.fold_neg_twice hb.min hb.max
  refine ⟨_, leads_straight _ hcells ho (Int.le_refl o) (by simp) hroom ?_,
    hσ.gives_takes ?_ ?_ ?_, ?_, ?_⟩
  · simp only [List.forall_mem_cons, ha.stores, hb.stores, hc.stores, hA, hB, hC]
    simp
  · simp
  · simpa [hc.ne] using hσ.zero
  · simp
  · simp [hb.ne, hc.ne, hb.eq, hy]
  · simp [ha.ne, hc.ne, ha.eq, hx]

end Starts

/-! ## Multiplication -/

/-- Once through the loop of a multiplication: `tempA`, which holds a negated value, is taken off the
result, and 1 off the count in `tempB`. -/
theorem leads_mulPass (hcell₉ : p.fetch (o + 9) = .subleq zero tempB (o + 13))
    (hcell₁₀ : p.fetch (o + 10) = .subleq tempA c (o + 11))
    (hcell₁₁ : p.fetch (o + 11) = .subleq tempC tempB (o + 13)) (hroom : o + 13 < maxPc)
    (hc : 0 ≤ c ∧ c < zero) (hσ : σ.Ready) (hA : σ tempA = some (-u)) (hB : σ tempB = some t)
    (hC : σ tempC = some 1) (hr : σ c = some r) (ht : 0 < t) (ht' : t ≤ 127) :
    Leads p o (o + 13) 3 (o + 9) σ (if t - 1 ≤ 0 then o + 13 else o + 12)
      (Function.update (Function.update σ c (some (Byte.fold (r + u)))) tempB (some (t - 1))) := by
  have hmem : (0 ≤ tempA ∧ tempA < ioPort) ∧ (0 ≤ tempB ∧ tempB < ioPort) ∧
      (0 ≤ tempC ∧ tempC < ioPort) ∧ 0 ≤ zero ∧ zero < ioPort := by decide
  rcases hmem with ⟨hAmem, hBmem, hCmem, hZmem⟩
  have hcmem : 0 ≤ c ∧ c < ioPort := by
    simp only [zero, ioPort] at hc ⊢
    omega
  have hne : tempB ≠ c ∧ tempC ≠ c := by
    simp only [zero, tempB, tempC] at hc ⊢
    omega
  have hguard : Leads p o (o + 13) 1 (o + 9) σ (o + 10) _ :=
    leads_take_of_pos hcell₉ (by simp [Cell.empty, zero]) hZmem hBmem hσ.zero hB (by omega) hroom
      (by rw [Int.sub_zero]; exact Byte.fold_of_mem (by omega) ht') ht (by omega)
  rw [← hB, Function.update_eq_self] at hguard
  have hsum : Leads p o (o + 13) 1 (o + 10) σ _ _ :=
    leads_take hcell₁₀ (by simp [Cell.empty, tempA]) hAmem hcmem hA hr (by omega) (by omega)
  have hadd : o + 10 + 1 = o + 11 := by omega
  rw [hadd, ite_self, Int.sub_neg] at hsum
  have hcount : Leads p o (o + 13) 1 (o + 11) (Function.update σ c (some (Byte.fold (r + u)))) _ _ :=
    leads_take hcell₁₁ (by simp [Cell.empty, tempC]) hCmem hBmem
      (by rw [Function.update_of_ne hne.2, hC]) (by rw [Function.update_of_ne hne.1, hB])
      (by omega) hroom
  have hfold : Byte.fold (t - 1) = t - 1 := Byte.fold_of_mem (by omega) (by omega)
  have hadd' : o + 11 + 1 = o + 12 := by omega
  rw [hfold, hadd'] at hcount
  exact (hguard.trans hsum fun _ => ⟨by omega, by omega⟩).trans hcount
    fun _ => ⟨by omega, by omega⟩

/-- The loop of a multiplication adds the first operand as often as `tempB` says. -/
theorem leads_mulLoop (hcell₉ : p.fetch (o + 9) = .subleq zero tempB (o + 13))
    (hcell₁₀ : p.fetch (o + 10) = .subleq tempA c (o + 11))
    (hcell₁₁ : p.fetch (o + 11) = .subleq tempC tempB (o + 13))
    (hcell₁₂ : p.fetch (o + 12) = .subleq zero zero (o + 9)) (hroom : o + 13 < maxPc)
    (hc : 0 ≤ c ∧ c < zero) (n : Nat) (hn : n < 127) (hσ : σ.Ready) (hA : σ tempA = some (-u))
    (hB : σ tempB = some ((n + 1 : Nat) : Int)) (hC : σ tempC = some 1) (hr : σ c = some r) :
    ∃ σ', Leads p o (o + 13) (4 * n + 3) (o + 9) σ (o + 13) σ' ∧
      σ.Gives σ' c ((fun r => Byte.fold (r + u))^[n + 1] r) := by
  have hscratch : Store.IsScratch tempB := by
    simp [Store.IsScratch, tempA, tempB, tempC]
  have hc' : ¬Store.IsScratch c := by
    simp only [zero, tempA, tempC, Store.IsScratch] at hc ⊢
    omega
  induction n generalizing σ r with
  | zero =>
    have hpass := leads_mulPass hcell₉ hcell₁₀ hcell₁₁ hroom hc hσ hA hB hC hr (by simp) (by simp)
    rw [if_pos (by simp)] at hpass
    exact ⟨_, hpass, (hσ.gives_update c _).update hscratch hc' _⟩
  | succ n ih =>
    have hpass := leads_mulPass hcell₉ hcell₁₀ hcell₁₁ hroom hc hσ hA hB hC hr (by omega) (by omega)
    have hcount : ((n + 1 + 1 : Nat) : Int) - 1 = (n + 1 : Nat) := by
      push_cast
      omega
    rw [hcount, if_neg (by omega)] at hpass
    have hgives := (hσ.gives_update c (Byte.fold (r + u))).update hscratch hc' ((n + 1 : Nat) : Int)
    have hσ' := hgives.ready hσ hc.2
    have hne : tempA ≠ c ∧ tempC ≠ c := by
      simp only [zero, tempA, tempC] at hc ⊢
      omega
    -- back to the beginning of the loop, with one less to count
    have hback : Leads p o (o + 13) 1 (o + 12) _ (o + 9) _ :=
      leads_goto hcell₁₂ hσ'.isSome_zero (by omega) (by omega)
    rw [← hσ'.zero, Function.update_eq_self] at hback
    rcases ih (by omega) hσ'
      (by rw [Function.update_of_ne (by decide), Function.update_of_ne hne.1, hA])
      (Function.update_self ..)
      (by rw [Function.update_of_ne (by decide), Function.update_of_ne hne.2, hC])
      hgives.result with ⟨σ', hrest, hgives'⟩
    have hwalk := (hpass.trans hback fun _ => ⟨by omega, by omega⟩).trans hrest
      fun _ => ⟨by omega, by omega⟩
    have hsteps : 3 + 1 + (4 * n + 3) = 4 * (n + 1) + 3 := by omega
    rw [hsteps] at hwalk
    exact ⟨σ', hwalk, hgives.trans hgives'⟩

/-- A multiplication goes through its loop as often as its second operand says, and if that is not
positive, no further than to the first cell of it. -/
theorem leads_mul (hcells : p.Holds o ((Code.operation (.arith .mul a b c)).cells o)) (ho : 0 ≤ o)
    (hroom : o + 13 < maxPc) (hσ : σ.Ready) (hneg : σ negOne = some (-1)) (ha : σ.Operand a x)
    (hb : σ.Operand b y) (hc : σ.Operand c z) :
    ∃ σ', Leads p o (o + 13) (if Byte.copied y ≤ 0 then 10 else 4 * (Byte.copied y).toNat + 8) o σ
      (o + 13) σ' ∧ σ.Gives σ' c (Byte.product x y) := by
  rw [Code.cells_mul] at hcells
  rcases leads_mulStart hcells.left ho hroom hσ hneg ha hb hc with
    ⟨σ₁, hstart, hgives, hA, hB, hC⟩
  have hσ₁ := hgives.ready hσ hc.lt
  have hw := Byte.copied_mem hb.min hb.max
  unfold Byte.product
  generalize Byte.copied y = w at *
  by_cases hpos : w ≤ 0
  · -- the loop is left at once
    have hnone : w.toNat = 0 := by omega
    have hguard : Leads p o (o + 13) 1 (o + 9) σ₁ (o + 13) _ :=
      leads_take_of_le (hcells 9 _ rfl) (by simp [Cell.empty, zero]) (by decide) (by decide)
        hσ₁.zero hB (by omega) hroom
        (by rw [Int.sub_zero]; exact Byte.fold_of_mem (by omega) (by omega)) hpos
    have hscratch : Store.IsScratch tempB := by
      simp [Store.IsScratch, tempA, tempB, tempC]
    rw [if_pos hpos, hnone]
    exact ⟨_, hstart.trans hguard fun _ => ⟨by omega, by omega⟩,
      hgives.update hscratch hc.not_isScratch w⟩
  · obtain ⟨n, rfl⟩ : ∃ n : Nat, w = (n + 1 : Nat) := ⟨w.toNat - 1, by omega⟩
    rcases leads_mulLoop (hcells 9 _ rfl) (hcells 10 _ rfl) (hcells 11 _ rfl) (hcells 12 _ rfl) hroom
      ⟨hc.nonneg, hc.lt⟩ n (by omega) hσ₁ hA hB hC hgives.result with
      ⟨σ', hloop, hgives'⟩
    have hsteps : 9 + (4 * n + 3) = 4 * ((n + 1 : Nat) : Int).toNat + 8 := by
      omega
    have hwalk := hstart.trans hloop fun _ => ⟨by omega, by omega⟩
    rw [hsteps] at hwalk
    rw [if_neg hpos, Int.toNat_natCast]
    exact ⟨σ', hwalk, hgives.trans hgives'⟩

/-! ## Division -/

/-- The cells of the loop of a division and those after it. -/
structure DivLoop (p : Program) (o c : Int) : Prop where
  takeOff : p.fetch (o + 9) = .subleq tempC tempB (o + 12)
  count : p.fetch (o + 10) = .subleq negOne c (o + 11)
  back : p.fetch (o + 11) = .subleq zero zero (o + 9)
  test : p.fetch (o + 12) = .subleq negOne tempB (o + 14)
  countExact : p.fetch (o + 13) = .subleq negOne c (o + 14)
  room : o + 14 < maxPc
  result : 0 ≤ c ∧ c < zero

/-- What is left of the dividend, the divisor, and the number of times that it has come off. -/
structure Dividing (σ : Store) (c t u q : Int) : Prop where
  ready : σ.Ready
  negOne : σ negOne = some (-1)
  rest : σ tempB = some t
  divisor : σ tempC = some u
  count : σ c = some q

/-- The result of a division lies below the cells that it works with. -/
theorem DivLoop.apart (hp : DivLoop p o c) : (0 ≤ c ∧ c < ioPort) ∧ c ≠ tempB ∧ c ≠ tempC ∧
    c ≠ negOne ∧ ¬Store.IsScratch c := by
  have hc := hp.result
  simp only [zero, negOne, tempA, tempB, tempC, ioPort, Store.IsScratch] at hc ⊢
  omega

/-- The divisor comes off what is left, and the sign of the rest decides how it goes on. -/
theorem Dividing.takeOff {t' : Int} (hp : DivLoop p o c) (hσ : Dividing σ c t u q)
    (ht : Byte.fold (t - u) = t') :
    Leads p o (o + 14) 1 (o + 9) σ (if t' ≤ 0 then o + 12 else o + 10)
      (Function.update σ tempB (some t')) := by
  have hroom := hp.room
  have hwalk : Leads p o (o + 14) 1 (o + 9) σ _ _ :=
    leads_take hp.takeOff (by simp [Cell.empty, tempC]) (by decide) (by decide) hσ.divisor hσ.rest
      (by omega) (by omega)
  have hadd : o + 9 + 1 = o + 10 := by omega
  rwa [ht, hadd] at hwalk

/-- If something positive is left, it is counted and the loop begins again. -/
theorem leads_divAgain {t' : Int} (hp : DivLoop p o c) (hσ : Dividing σ c t u q)
    (ht : Byte.fold (t - u) = t') (hpos : 0 < t') :
    ∃ σ', Leads p o (o + 14) 3 (o + 9) σ (o + 9) σ' ∧ σ.Gives σ' c (Byte.fold (q + 1)) ∧
      Dividing σ' c t' u (Byte.fold (q + 1)) := by
  have hroom := hp.room
  rcases hp.apart with ⟨hcmem, hneB, hneC, hneN, hplain⟩
  have hscratch : Store.IsScratch tempB := by
    simp [Store.IsScratch, tempA, tempB, tempC]
  have hspares : σ.Spares (Function.update σ tempB (some t')) :=
    .update ⟨fun _ _ => rfl, hσ.ready.scratch⟩ hscratch t'
  have htake := hσ.takeOff hp ht
  rw [if_neg (by omega)] at htake
  have hcount : Leads p o (o + 14) 1 (o + 10) (Function.update σ tempB (some t')) _ _ :=
    leads_take hp.count (by simp [Cell.empty, negOne]) (by decide) hcmem
      (by rw [Function.update_of_ne (by decide), hσ.negOne])
      (by rw [Function.update_of_ne hneB, hσ.count]) (by omega) (by omega)
  have hadd : o + 10 + 1 = o + 11 := by omega
  rw [hadd, ite_self, Int.sub_neg] at hcount
  have hgives := (hspares.gives (c := c) (r := q) hσ.count hplain).trans
    ((hspares.ready hσ.ready).gives_update c (Byte.fold (q + 1)))
  have hready := hgives.ready hσ.ready hp.result.2
  -- counting has touched none of the cells that the loop works with, so it can begin again
  have hback : Leads p o (o + 14) 1 (o + 11) _ (o + 9) _ :=
    leads_goto hp.back hready.isSome_zero (by omega) (by omega)
  rw [← hready.zero, Function.update_eq_self] at hback
  refine ⟨_, (htake.trans hcount fun _ => ⟨by omega, by omega⟩).trans hback
    fun _ => ⟨by omega, by omega⟩, hgives, hready, ?_, ?_, ?_, hgives.result⟩
  · rw [Function.update_of_ne hneN.symm, Function.update_of_ne (by decide), hσ.negOne]
  · rw [Function.update_of_ne hneB.symm, Function.update_self]
  · rw [Function.update_of_ne hneC.symm, Function.update_of_ne (by decide), hσ.divisor]

/-- If not, the loop is left, and a rest of exactly zero is counted. -/
theorem leads_divLast {t' : Int} (hp : DivLoop p o c) (hσ : Dividing σ c t u q)
    (ht : Byte.fold (t - u) = t') (hle : t' ≤ 0) (hmin : -128 ≤ t') :
    ∃ n σ', Leads p o (o + 14) n (o + 9) σ (o + 14) σ' ∧
      σ.Gives σ' c (if t' = 0 then Byte.fold (q + 1) else q) := by
  have hNmem : 0 ≤ negOne ∧ negOne < ioPort := by decide
  have hBmem : 0 ≤ tempB ∧ tempB < ioPort := by decide
  have hroom := hp.room
  rcases hp.apart with ⟨hcmem, hneB, -, -, hplain⟩
  have hscratch : Store.IsScratch tempB := by
    simp [Store.IsScratch, tempA, tempB, tempC]
  have hspares : σ.Spares (Function.update σ tempB (some (t' + 1))) :=
    .update ⟨fun _ _ => rfl, hσ.ready.scratch⟩ hscratch (t' + 1)
  have hgives := hspares.gives hσ.count hplain
  have htake := hσ.takeOff hp ht
  rw [if_pos hle] at htake
  -- the rest is not positive, and one more than it is positive only if it is zero
  have hnext : Byte.fold (t' - -1) = t' + 1 := by
    rw [Int.sub_neg]
    exact Byte.fold_of_mem (by omega) (by omega)
  have hneg : (Function.update σ tempB (some t')) negOne = some (-1) := by
    rw [Function.update_of_ne (by decide), hσ.negOne]
  by_cases hzero : t' = 0
  · have htest : Leads p o (o + 14) 1 (o + 12) _ (o + 13) _ :=
      leads_take_of_pos hp.test (by simp [Cell.empty, negOne]) hNmem hBmem hneg
        (Function.update_self ..) (by omega) (by omega) hnext (by omega) (by omega)
    rw [Function.update_idem] at htest
    have hcount : Leads p o (o + 14) 1 (o + 13)
        (Function.update σ tempB (some (t' + 1))) _ _ :=
      leads_take hp.countExact (by simp [Cell.empty, negOne]) hNmem hcmem
        (by rw [Function.update_of_ne (by decide), hσ.negOne])
        (by rw [Function.update_of_ne hneB, hσ.count]) (by omega) (by omega)
    have hadd : o + 13 + 1 = o + 14 := by omega
    rw [hadd, ite_self, Int.sub_neg] at hcount
    rw [if_pos hzero]
    exact ⟨_, _, (htake.trans htest fun _ => ⟨by omega, by omega⟩).trans hcount
      fun _ => ⟨by omega, by omega⟩,
      hgives.trans ((hspares.ready hσ.ready).gives_update c (Byte.fold (q + 1)))⟩
  · have htest : Leads p o (o + 14) 1 (o + 12) _ (o + 14) _ :=
      leads_take_of_le hp.test (by simp [Cell.empty, negOne]) hNmem hBmem hneg
        (Function.update_self ..) (by omega) (by omega) hnext (by omega)
    rw [Function.update_idem] at htest
    rw [if_neg hzero]
    exact ⟨_, _, htake.trans htest fun _ => ⟨by omega, by omega⟩, hgives⟩

/-- A positive divisor comes off until nothing positive is left. -/
theorem leads_down (hp : DivLoop p o c) (hu : 0 < u) (hu' : u ≤ 127) (n : Nat)
    (hσ : Dividing σ c t u q) (ht : 0 ≤ t) (htn : t < n) (ht' : t ≤ 127) (hq : 0 ≤ q)
    (hq' : q + t / u ≤ 127) :
    ∃ k σ', Leads p o (o + 14) k (o + 9) σ (o + 14) σ' ∧ σ.Gives σ' c (q + t / u) := by
  induction n generalizing σ t q with
  | zero => omega
  | succ n ih =>
    have hfold : Byte.fold (t - u) = t - u := Byte.fold_of_mem (by omega) (by omega)
    rcases Int.lt_trichotomy t u with hlt | heq | hgt
    · -- it does not come off once more
      have hzero : t / u = 0 := Int.ediv_eq_zero_of_lt ht hlt
      rcases leads_divLast hp hσ hfold (by omega) (by omega) with ⟨k, σ', hwalk, hgives⟩
      rw [if_neg (by omega)] at hgives
      rw [hzero, Int.add_zero]
      exact ⟨k, σ', hwalk, hgives⟩
    · have hone : t / u = 1 := by
        rw [heq]
        exact Int.ediv_self (by omega)
      rcases leads_divLast hp hσ hfold (by omega) (by omega) with ⟨k, σ', hwalk, hgives⟩
      rw [if_pos (by omega), Byte.fold_of_mem (by omega) (by omega)] at hgives
      rw [hone]
      exact ⟨k, σ', hwalk, hgives⟩
    · have hquotient : t / u = (t - u) / u + 1 := by
        rw [← Int.add_mul_ediv_right _ 1 (by omega)]
        congr 1
        omega
      have hnonneg : 0 ≤ (t - u) / u := Int.ediv_nonneg (by omega) (by omega)
      rcases leads_divAgain hp hσ hfold (by omega) with ⟨σ₁, hwalk, hgives, hσ₁⟩
      rw [Byte.fold_of_mem (by omega) (by omega)] at hgives hσ₁
      rcases ih hσ₁ (by omega) (by omega) (by omega) (by omega) (by omega) with
        ⟨k, σ', hrest, hgives'⟩
      have hsum : q + t / u = q + 1 + (t - u) / u := by omega
      rw [hsum]
      exact ⟨_, σ', hwalk.trans hrest fun _ => ⟨by omega, by omega⟩, hgives.trans hgives'⟩

/-- What a negative divisor adds stays positive until it leaves the range of a byte. -/
theorem leads_up (hp : DivLoop p o c) (hu : u < 0) (hu' : -127 ≤ u) (n : Nat)
    (hσ : Dividing σ c t u q) (ht : u < t) (htn : 127 - t < n) (ht' : t ≤ 127) (hq : 0 ≤ q)
    (hq' : q + (127 - t) / -u ≤ 127) :
    ∃ k σ', Leads p o (o + 14) k (o + 9) σ (o + 14) σ' ∧ σ.Gives σ' c (q + (127 - t) / -u) := by
  induction n generalizing σ t q with
  | zero => omega
  | succ n ih =>
    by_cases hlast : 127 < t - u
    · have hzero : (127 - t) / -u = 0 := Int.ediv_eq_zero_of_lt (by omega) (by omega)
      have hfold : Byte.fold (t - u) = t - u - 255 := by
        have hcases := Byte.fold_cases (t - u)
        omega
      rcases leads_divLast hp hσ hfold (by omega) (by omega) with ⟨k, σ', hwalk, hgives⟩
      rw [if_neg (by omega)] at hgives
      rw [hzero, Int.add_zero]
      exact ⟨k, σ', hwalk, hgives⟩
    · have hfold : Byte.fold (t - u) = t - u := Byte.fold_of_mem (by omega) (by omega)
      have hquotient : (127 - t) / -u = (127 - (t - u)) / -u + 1 := by
        rw [← Int.add_mul_ediv_right _ 1 (by omega)]
        congr 1
        omega
      have hnonneg : 0 ≤ (127 - (t - u)) / -u := Int.ediv_nonneg (by omega) (by omega)
      rcases leads_divAgain hp hσ hfold (by omega) with ⟨σ₁, hwalk, hgives, hσ₁⟩
      rw [Byte.fold_of_mem (by omega) (by omega)] at hgives hσ₁
      rcases ih hσ₁ (by omega) (by omega) (by omega) (by omega) (by omega) with
        ⟨k, σ', hrest, hgives'⟩
      have hsum : q + (127 - t) / -u = q + 1 + (127 - (t - u)) / -u := by omega
      rw [hsum]
      exact ⟨_, σ', hwalk.trans hrest fun _ => ⟨by omega, by omega⟩, hgives.trans hgives'⟩

/-- From the beginning of the loop, a division that has a result comes to it. -/
theorem leads_divLoop (hp : DivLoop p o c) (hσ : Dividing σ c t u 0) (ht : -127 ≤ t) (ht' : t ≤ 127)
    (hu : -127 ≤ u) (hu' : u ≤ 127) (hq : Byte.divide? u t = some q) :
    ∃ k σ', Leads p o (o + 14) k (o + 9) σ (o + 14) σ' ∧ σ.Gives σ' c q := by
  have hmem := Byte.divide?_mem hu hu' ht ht' hq
  have hcases := Byte.fold_cases (t - u)
  unfold Byte.divide? at hq
  split_ifs at hq with hpos hnonneg hnear hzero htpos htzero hlow hsame <;>
    replace hq := Option.some.inj hq
  · rcases leads_down hp hpos hu' (t.toNat + 1) hσ hnonneg (by omega) ht' (Int.le_refl 0) (by omega) with
      ⟨k, σ', hwalk, hgives⟩
    rw [Int.zero_add, hq] at hgives
    exact ⟨k, σ', hwalk, hgives⟩
  · rcases leads_divLast hp hσ rfl (by omega) (by omega) with ⟨k, σ', hwalk, hgives⟩
    rw [if_neg (by omega), hq] at hgives
    exact ⟨k, σ', hwalk, hgives⟩
  · -- the first subtraction leaves the range, and from then on something positive is left
    have hfold : Byte.fold (t - u) = t - u + 255 := by omega
    rcases leads_divAgain hp hσ hfold (by omega) with ⟨σ₁, hwalk, hgives, hσ₁⟩
    have hquotient : (t + 255) / u = (t - u + 255) / u + 1 := by
      rw [← Int.add_mul_ediv_right _ 1 (by omega)]
      congr 1
      omega
    rw [Byte.fold_of_mem (by omega) (by omega)] at hgives hσ₁
    rcases leads_down hp hpos hu' 127 hσ₁ (by omega) (by omega) (by omega) (by omega)
      (by omega) with ⟨k, σ', hrest, hgives'⟩
    have hsum : 0 + 1 + (t - u + 255) / u = q := by omega
    rw [hsum] at hgives'
    exact ⟨_, σ', hwalk.trans hrest fun _ => ⟨by omega, by omega⟩, hgives.trans hgives'⟩
  · have hexact : Byte.fold (t - u) = 0 := by omega
    rcases leads_divLast hp hσ hexact (Int.le_refl 0) (by omega) with ⟨k, σ', hwalk, hgives⟩
    rw [if_pos rfl, Byte.fold_of_mem (by omega) (by omega), Int.zero_add, hq] at hgives
    exact ⟨k, σ', hwalk, hgives⟩
  · rcases leads_divLast hp hσ rfl (by omega) (by omega) with ⟨k, σ', hwalk, hgives⟩
    rw [if_neg (by omega), hq] at hgives
    exact ⟨k, σ', hwalk, hgives⟩
  · rcases leads_divLast hp hσ rfl (by omega) (by omega) with ⟨k, σ', hwalk, hgives⟩
    rw [if_neg (by omega), hq] at hgives
    exact ⟨k, σ', hwalk, hgives⟩
  · have hexact : Byte.fold (t - u) = 0 := by omega
    rcases leads_divLast hp hσ hexact (Int.le_refl 0) (by omega) with ⟨k, σ', hwalk, hgives⟩
    rw [if_pos rfl, Byte.fold_of_mem (by omega) (by omega), Int.zero_add, hq] at hgives
    exact ⟨k, σ', hwalk, hgives⟩
  · rcases leads_up hp (by omega) hu 255 hσ (by omega) (by omega) ht' (Int.le_refl 0) (by omega) with
      ⟨k, σ', hwalk, hgives⟩
    rw [Int.zero_add, hq] at hgives
    exact ⟨k, σ', hwalk, hgives⟩

/-- Nothing comes off if the divisor is zero, however often the loop is gone through. -/
theorem leads_divForever (hp : DivLoop p o c) (hσ : Dividing σ c t 0 q) (ht : 0 < t) (ht' : t ≤ 127)
    (n : Nat) : ∃ σ', Leads p o (o + 14) (3 * n) (o + 9) σ (o + 9) σ' := by
  induction n generalizing σ q with
  | zero => exact ⟨σ, .refl p o (o + 14) (o + 9) σ⟩
  | succ n ih =>
    have hfold : Byte.fold (t - 0) = t := by
      rw [Int.sub_zero]
      exact Byte.fold_of_mem (by omega) ht'
    rcases leads_divAgain hp hσ hfold ht with ⟨σ₁, hwalk, _, hσ₁⟩
    rcases ih hσ₁ with ⟨σ', hrest⟩
    have hsteps : 3 + 3 * n = 3 * (n + 1) := by omega
    exact ⟨σ', hsteps ▸ hwalk.trans hrest fun _ => ⟨by omega, by omega⟩⟩

section Div

variable (hcells : p.Holds o ((Code.operation (.arith .div a b c)).cells o)) (ho : 0 ≤ o)
  (hroom : o + 14 < maxPc) (hσ : σ.Ready) (hneg : σ negOne = some (-1)) (ha : σ.Operand a x)
  (hb : σ.Operand b y) (hc : σ.Operand c z)

include hcells ho hroom hσ hneg ha hb hc

/-- The block of a division up to the beginning of its loop. -/
theorem leads_divHead : DivLoop p o c ∧ ∃ σ', Leads p o (o + 14) 9 o σ (o + 9) σ' ∧
    σ.Gives σ' c 0 ∧ Dividing σ' c (Byte.copied y) (Byte.copied x) 0 := by
  rw [Code.cells_div] at hcells
  rcases leads_divStart hcells.left ho hroom hσ ha hb hc with ⟨σ', hwalk, hgives, hB, hC⟩
  have hneg' : σ' negOne = some (-1) := by
    have hne : negOne ≠ c ∧ ¬Store.IsScratch negOne := by
      have hlt := hc.lt
      simp only [zero] at hlt
      simp only [negOne, Store.IsScratch, tempA, tempC]
      omega
    rw [hgives.frame negOne hne.1 hne.2, hneg]
  exact ⟨⟨hcells 9 _ rfl, hcells 10 _ rfl, hcells 11 _ rfl, hcells 12 _ rfl, hcells 13 _ rfl, hroom,
    hc.nonneg, hc.lt⟩, σ', hwalk, hgives, hgives.ready hσ hc.lt, hneg', hB, hC, hgives.result⟩

/-- A division that has a result comes to it. -/
theorem leads_div (hq : Byte.divide? (Byte.copied x) (Byte.copied y) = some q) :
    ∃ n σ', 0 < n ∧ Leads p o (o + 14) n o σ (o + 14) σ' ∧ σ.Gives σ' c q := by
  rcases leads_divHead hcells ho hroom hσ hneg ha hb hc with ⟨hp, σ₁, hstart, hgives, hσ₁⟩
  have hu := Byte.copied_mem ha.min ha.max
  have ht := Byte.copied_mem hb.min hb.max
  rcases leads_divLoop hp hσ₁ ht.1 ht.2 hu.1 hu.2 hq with ⟨k, σ', hrest, hgives'⟩
  exact ⟨9 + k, σ', by omega, hstart.trans hrest fun _ => ⟨by omega, by omega⟩,
    hgives.trans hgives'⟩

/-- One that has none goes on inside its block for any number of steps. -/
theorem runs_div (hq : Byte.divide? (Byte.copied x) (Byte.copied y) = none) {m : Machine}
    (hm : m.At p o σ) (n : Nat) :
    ∃ m', Runs n m m' ∧ (0 < n → o < m'.pc ∧ m'.pc < o + 14) := by
  rcases leads_divHead hcells ho hroom hσ hneg ha hb hc with ⟨hp, σ₁, hstart, _, hσ₁⟩
  have ht := Byte.copied_mem hb.min hb.max
  rcases Byte.divide?_eq_none_iff.mp hq with ⟨hzero, hpos⟩
  rw [hzero] at hσ₁
  rcases leads_divForever hp hσ₁ hpos ht.2 n with ⟨σ', hrest⟩
  have hwalk := hstart.trans hrest fun _ => ⟨by omega, by omega⟩
  -- the first steps of a walk that is longer
  rcases hwalk m hm with ⟨m₂, hruns, _, hinside⟩
  have hsplit : 9 + 3 * n = n + (9 + 2 * n) := by omega
  have hruns' := hruns
  rw [hsplit] at hruns'
  rcases hruns'.split with ⟨m', hfirst, _⟩
  exact ⟨m', hfirst, fun hpos => hinside n m' hpos (by omega) hfirst⟩

end Div

end Machine

end Subleq
