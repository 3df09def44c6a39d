import Mathlib
import Subleq.Proofs.Canonical
import Subleq.Proofs.Steps

/-!
# Subleq.Proofs.Preload — when the preload ends

The preload follows the loads at the beginning of a program, each to its successor, and there is no
limit to them. `Preloads` is this loop, one rule for each way it can go on; `Machine.preload` says
what the loop comes to, or that it comes to no end (`preload_eq_some_iff`).

Where loads lead does not depend on the data, so that the loop is about addresses only
(`Program.afterLoads`): it ends unless it comes to an address twice (`preload_ends`). One load that is
its own successor is enough to keep it going for ever (`not_always_preloaded`). If the loop does
end, it has executed a load at each address at most once. It is sure to end, and to execute just the
loads before the first other cell, where each load goes on at the next address.
-/

namespace Subleq

/-! ## Addresses of loads -/

namespace Program

variable {p : Program} {a b : Int} {n k : Nat}

/-- Where the load at an address goes on, if there is a load. -/
def successor? (p : Program) (a : Int) : Option Int :=
  if Machine.maxPc ≤ a then none
  else
    match p.fetch a with
    | .load _ _ next => some next
    | .subleq .. => none

/-- The address after so many loads, if there are so many. -/
def afterLoads (p : Program) : Nat → Int → Option Int
  | 0, a => some a
  | n + 1, a => (p.successor? a).bind (p.afterLoads n)

/-- Following the loads from the first cell leads to an address twice. -/
def Circles (p : Program) : Prop :=
  ∃ i j a, i < j ∧ p.afterLoads i 0 = some a ∧ p.afterLoads j 0 = some a

theorem successor?_eq_some_iff : p.successor? a = some b ↔
    a < Machine.maxPc ∧ ∃ v d, p.fetch a = .load v d b := by
  unfold successor?
  by_cases hout : Machine.maxPc ≤ a
  · simp only [hout, if_true, reduceCtorEq, false_iff]
    omega
  · rw [if_neg hout]
    cases p.fetch a <;> simp [Int.not_le.mp hout]

theorem afterLoads_add (n k : Nat) (a : Int) :
    p.afterLoads (n + k) a = (p.afterLoads n a).bind (p.afterLoads k) := by
  induction n generalizing a with
  | zero => simp [afterLoads]
  | succ n ih =>
    have hadd : n + 1 + k = n + k + 1 := by omega
    rw [hadd, afterLoads, afterLoads]
    cases p.successor? a with
    | none => rfl
    | some next => simp only [Option.bind_some, ih]

theorem afterLoads_succ (n : Nat) (a : Int) :
    p.afterLoads (n + 1) a = (p.afterLoads n a).bind p.successor? := by
  rw [afterLoads_add]
  congr 1
  funext b
  simp [afterLoads]

theorem isSome_afterLoads (hnk : n ≤ k) (h : (p.afterLoads k a).isSome) :
    (p.afterLoads n a).isSome := by
  obtain ⟨j, rfl⟩ := Nat.exists_eq_add_of_le hnk
  rw [afterLoads_add] at h
  cases hn : p.afterLoads n a with
  | none => simp [hn] at h
  | some b => rfl

/-- Loads that come to an address twice never end. -/
theorem Circles.isSome (h : p.Circles) (n : Nat) : (p.afterLoads n 0).isSome := by
  rcases h with ⟨i, j, a, hij, hi, hj⟩
  -- once more around the circle, as many times as it takes
  have hround : ∀ t, p.afterLoads (i + t * (j - i)) 0 = some a := by
    intro t
    induction t with
    | zero => simpa using hi
    | succ t ih =>
      have hloop : p.afterLoads (j - i) a = some a := by
        have hadd := p.afterLoads_add i (j - i) 0
        rw [hi, Nat.add_sub_cancel' hij.le, hj] at hadd
        exact hadd.symm
      rw [Nat.add_mul, Nat.one_mul, ← Nat.add_assoc, afterLoads_add, ih]
      exact hloop
  have hle : n ≤ i + n * (j - i) := by
    have hpos : 1 ≤ j - i := by omega
    have hmul : n * 1 ≤ n * (j - i) := Nat.mul_le_mul_left n hpos
    omega
  exact isSome_afterLoads hle (by rw [hround n]; rfl)

/-- More loads than there are addresses for them come to an address twice. -/
theorem circles_of_card_lt {S : Finset Int} (hS : ∀ a, (p.successor? a).isSome → a ∈ S)
    (hcard : S.card < n) (h : (p.afterLoads n 0).isSome) : p.Circles := by
  have hget : ∀ i ∈ Finset.range n, ∃ a ∈ S, p.afterLoads i 0 = some a := by
    intro i hi
    have hsucc := isSome_afterLoads (Finset.mem_range.mp hi) h
    rw [afterLoads_succ] at hsucc
    cases ha : p.afterLoads i 0 with
    | none => simp [ha] at hsucc
    | some a =>
      rw [ha] at hsucc
      exact ⟨a, hS a hsucc, rfl⟩
  have hmaps : ∀ i ∈ Finset.range n, (p.afterLoads i 0).getD 0 ∈ S := by
    intro i hi
    rcases hget i hi with ⟨a, ha, heq⟩
    rwa [heq]
  have hcard' : S.card < (Finset.range n).card := by
    rwa [Finset.card_range]
  rcases Finset.exists_ne_map_eq_of_card_lt_of_maps_to hcard' hmaps with ⟨i, hi, j, hj, hij, heq⟩
  rcases hget i hi with ⟨a, -, ha⟩
  rcases hget j hj with ⟨b, -, hb⟩
  rw [ha, hb] at heq
  obtain rfl : a = b := heq
  rcases Nat.lt_or_gt_of_ne hij with hlt | hlt
  · exact ⟨i, j, a, hlt, ha, hb⟩
  · exact ⟨j, i, a, hlt, hb, ha⟩

/-- A load is one of the cells that the program store has. -/
theorem exists_of_successor? (h : (p.successor? a).isSome) : ∃ c, p[a]? = some c := by
  rcases Option.isSome_iff_exists.mp h with ⟨next, hnext⟩
  rcases successor?_eq_some_iff.mp hnext with ⟨-, v, d, hfetch⟩
  cases ha : p[a]? with
  | some c => exact ⟨c, rfl⟩
  | none =>
    rw [fetch, ha] at hfetch
    cases hfetch

/-- Loads in a row that are not among those of a circle are no more than the store has cells. -/
theorem circles_of_size_lt (hn : p.size < n) (h : (p.afterLoads n 0).isSome) : p.Circles := by
  have hkeys : ∀ a, (p.successor? a).isSome → a ∈ p.keys.toFinset := by
    intro a ha
    rcases exists_of_successor? ha with ⟨c, hc⟩
    rw [List.mem_toFinset, Std.ExtTreeMap.mem_keys, ← Std.ExtTreeMap.isSome_getElem?_iff_mem, hc]
    rfl
  refine circles_of_card_lt hkeys (Nat.lt_of_le_of_lt ?_ hn) h
  calc p.keys.toFinset.card ≤ p.keys.length := List.toFinset_card_le _
    _ = p.size := Std.ExtTreeMap.length_keys

/-- Nor are they more than there are addresses in an image. -/
theorem circles_of_wellFormed (hp : p.WellFormed) (hn : 256 < n)
    (h : (p.afterLoads n 0).isSome) : p.Circles := by
  have hbyte : ∀ a, (p.successor? a).isSome → a ∈ Finset.Icc (0 : Int) 255 := by
    intro a ha
    rcases exists_of_successor? ha with ⟨c, hc⟩
    exact Finset.mem_Icc.mpr (hp a c hc).1
  exact circles_of_card_lt hbyte (by simpa using hn) h

/-- Loads that go on at the next address lead straight on. -/
theorem afterLoads_straight (hnext : ∀ a b, p.successor? a = some b → b = a + 1)
    (h : p.afterLoads n a = some b) : b = a + n := by
  induction n generalizing a with
  | zero =>
    cases h
    simp
  | succ n ih =>
    rw [afterLoads] at h
    rcases Option.bind_eq_some_iff.mp h with ⟨c, hc, hrest⟩
    have hstep := hnext a c hc
    have hb := ih hrest
    push_cast
    omega

end Program

/-! ## The loop -/

namespace Machine

variable {m m' : Machine} {n k : Nat}

/-- The loads from a machine on are executed, so many of them, and leave another machine. -/
inductive Preloads : Nat → Machine → Machine → Prop where
  /-- The machine has left the program store. -/
  | halted {m : Machine} (hpc : maxPc ≤ m.pc) : Preloads 0 m m
  /-- The machine is at a cell that is not a load. -/
  | stopped {m : Machine} (hpc : m.pc < maxPc) (hcell : (m.fetch m.pc).isLoad = false) :
      Preloads 0 m m
  /-- A load is executed. -/
  | load {n : Nat} {m m' : Machine} {v d next : Int} (hpc : m.pc < maxPc)
      (hcell : m.fetch m.pc = .load v d next) (rest : Preloads n (m.executeLoad v d next) m') :
      Preloads (n + 1) m m'

/-- A machine with no load to execute. -/
theorem preloads_of_none (h : m.program.successor? m.pc = none) : Preloads 0 m m := by
  rcases Int.lt_or_le m.pc maxPc with hpc | hpc
  · refine .stopped hpc ?_
    cases hcell : m.fetch m.pc with
    | load v d next =>
      have hsome := Program.successor?_eq_some_iff.mpr ⟨hpc, v, d, hcell⟩
      rw [h] at hsome
      cases hsome
    | subleq a b target => rfl
  · exact .halted hpc

/-- The loop follows the loads, and stops where there is none. -/
theorem Preloads.afterLoads (h : Preloads n m m') :
    m.program.afterLoads n m.pc = some m'.pc ∧ m.program.successor? m'.pc = none := by
  induction h with
  | @halted m hpc => exact ⟨rfl, if_pos hpc⟩
  | @stopped m hpc hcell =>
    refine ⟨rfl, ?_⟩
    rw [Option.eq_none_iff_forall_ne_some]
    intro next hnext
    rcases Program.successor?_eq_some_iff.mp hnext with ⟨-, v, d, hload⟩
    have hload' : m.fetch m.pc = .load v d next := hload
    rw [hload'] at hcell
    cases hcell
  | @load n m m' v d next hpc hcell rest ih =>
    have hsucc := Program.successor?_eq_some_iff.mpr ⟨hpc, v, d, hcell⟩
    rw [Program.afterLoads, hsucc]
    exact ih

/-- There are no loads beyond those that the loop executes. -/
theorem Preloads.isNone (h : Preloads n m m') : m.program.afterLoads (n + 1) m.pc = none := by
  rcases h.afterLoads with ⟨hlast, hnone⟩
  rw [Program.afterLoads_succ, hlast]
  exact hnone

/-- The loop ends after as many loads as there are in a row. -/
theorem exists_preloads (h : m.program.afterLoads k m.pc = none) : ∃ n m', n < k ∧ Preloads n m m' := by
  induction k generalizing m with
  | zero => cases h
  | succ k ih =>
    cases hsucc : m.program.successor? m.pc with
    | none => exact ⟨0, m, Nat.succ_pos k, preloads_of_none hsucc⟩
    | some next =>
      rcases Program.successor?_eq_some_iff.mp hsucc with ⟨hpc, v, d, hcell⟩
      rw [Program.afterLoads, hsucc] at h
      rcases ih (m := m.executeLoad v d next) h with ⟨n, m', hn, hpreloads⟩
      exact ⟨n + 1, m', by omega, .load hpc hcell hpreloads⟩

theorem preloadFor_of_preloads (h : Preloads n m m') (hnk : n ≤ k) :
    preloadFor k m = some (n, m') := by
  induction h generalizing k with
  | @halted m hpc =>
    unfold preloadFor
    simp [isHalted, hpc]
  | @stopped m hpc hcell =>
    unfold preloadFor
    cases hfetch : m.fetch m.pc with
    | load v d next =>
      rw [hfetch] at hcell
      cases hcell
    | subleq a b target => simp [isHalted]
  | @load n m m' v d next hpc hcell rest ih =>
    obtain ⟨j, rfl⟩ : ∃ j, k = j + 1 := ⟨k - 1, by omega⟩
    unfold preloadFor
    simp [isHalted, hpc, hcell, ih (Nat.le_of_succ_le_succ hnk)]

theorem preloads_of_preloadFor (h : preloadFor k m = some (n, m')) : Preloads n m m' := by
  fun_induction preloadFor k m generalizing n m' with
  | case1 k m hhalted =>
    cases h
    exact .halted (by simpa [isHalted] using hhalted)
  | case2 m hhalted v d next k hcell ih =>
    rcases Option.map_eq_some_iff.mp h with ⟨⟨j, m₁⟩, hrest, hsame⟩
    cases hsame
    exact .load (by simpa [isHalted] using hhalted) hcell (ih hrest)
  | case3 m hhalted v d next hcell => cases h
  | case4 k m hhalted a b target hcell =>
    cases h
    exact .stopped (by simpa [isHalted] using hhalted) (by rw [hcell]; rfl)

theorem Preloads.not_circles (h : Preloads n m.reset m') : ¬m.program.Circles := by
  intro hcircles
  have hsome := hcircles.isSome (n + 1)
  have hnone : m.program.afterLoads (n + 1) 0 = none := h.isNone
  rw [hnone] at hsome
  cases hsome

/-- The loop ends unless the loads go around in a circle. -/
theorem exists_preloads_iff : (∃ n m', Preloads n m.reset m') ↔ ¬m.program.Circles := by
  constructor
  · rintro ⟨n, m', h⟩
    exact h.not_circles
  · intro hcircles
    cases hmany : m.program.afterLoads (m.program.size + 1) 0 with
    | none =>
      rcases exists_preloads (m := m.reset) hmany with ⟨n, m', -, h⟩
      exact ⟨n, m', h⟩
    | some a =>
      refine absurd ?_ hcircles
      exact Program.circles_of_size_lt (Nat.lt_succ_self _) (by rw [hmany]; rfl)

/-- Room for as many loads as the program store has cells is enough to find out. -/
theorem preload_eq_some_iff : m.preload = some (n, m') ↔ Preloads n m.reset m' := by
  refine ⟨preloads_of_preloadFor, fun h => preloadFor_of_preloads h ?_⟩
  by_contra hmany
  refine h.not_circles (Program.circles_of_size_lt (Nat.not_le.mp hmany) ?_)
  have hlast : m.program.afterLoads n 0 = some m'.pc := h.afterLoads.1
  rw [hlast]
  rfl

/-! ## Results -/

/-- Loads that go on at the next address are executed from the first cell to the first cell that is
not a load, or to the end of the program store. -/
theorem preloads_straight
    (hnext : ∀ a next, m.program.successor? a = some next → next = a + 1) :
    ∃ n m', Preloads n m.reset m' ∧ n ≤ 256 ∧ (∀ i : Nat, i < n → (m.fetch i).isLoad = true) ∧
      (n < 256 → (m.fetch n).isLoad = false) := by
  have hends : ∃ n m', Preloads n m.reset m' := by
    rw [exists_preloads_iff]
    rintro ⟨i, j, a, hij, hi, hj⟩
    have hi' := Program.afterLoads_straight hnext hi
    have hj' := Program.afterLoads_straight hnext hj
    omega
  rcases hends with ⟨n, m', h⟩
  have hlast : m.program.afterLoads n 0 = some m'.pc := h.afterLoads.1
  have hstop : m.program.successor? m'.pc = none := h.afterLoads.2
  have hpc : m'.pc = n := by
    have hend := Program.afterLoads_straight hnext hlast
    rwa [Int.zero_add] at hend
  -- a load at each address before the last one
  have hload : ∀ i : Nat, i < n → ∃ next, m.program.successor? i = some next := by
    intro i hi
    have hsome : (m.program.afterLoads (i + 1) 0).isSome :=
      Program.isSome_afterLoads hi (by rw [hlast]; rfl)
    rw [Program.afterLoads_succ] at hsome
    cases ha : m.program.afterLoads i 0 with
    | none => simp [ha] at hsome
    | some a =>
      have hai := Program.afterLoads_straight hnext ha
      rw [Int.zero_add] at hai
      rw [ha, hai] at hsome
      exact Option.isSome_iff_exists.mp hsome
  refine ⟨n, m', h, ?_, ?_, ?_⟩
  · by_contra hmany
    rcases hload 256 (by omega) with ⟨next, hsucc⟩
    have hlt := (Program.successor?_eq_some_iff.mp hsucc).1
    exact absurd hlt (by decide)
  · intro i hi
    rcases hload i hi with ⟨next, hsucc⟩
    rcases Program.successor?_eq_some_iff.mp hsucc with ⟨-, v, d, hcell⟩
    rw [fetch, hcell]
    rfl
  · intro hn
    cases hcell : m.fetch n with
    | load v d next =>
      have hin : (n : Int) < maxPc := by
        simp only [maxPc]
        omega
      have hsucc := Program.successor?_eq_some_iff.mpr ⟨hin, v, d, hcell⟩
      rw [← hpc, hstop] at hsucc
      cases hsucc
    | subleq a b target => rfl

/-- The preload is the loop that executes loads one after the other from the first cell on. It ends
unless the loads lead to an address twice. If it ends, and the program store has cells at addresses
of an image only, then it has executed at most 256 loads. Where every load goes on at the next
address it does end, and the loads that it has executed are those before the first other cell. -/
theorem preload_ends (m : Machine) :
    (∀ n m', m.preload = some (n, m') ↔ Preloads n m.reset m') ∧
    ((∃ n m', Preloads n m.reset m') ↔ ¬m.program.Circles) ∧
    (m.program.WellFormed → ∀ n m', Preloads n m.reset m' → n ≤ 256) ∧
    ((∀ a next, m.program.successor? a = some next → next = a + 1) →
      ∃ n m', Preloads n m.reset m' ∧ n ≤ 256 ∧ (∀ i : Nat, i < n → (m.fetch i).isLoad = true) ∧
        (n < 256 → (m.fetch n).isLoad = false)) := by
  refine ⟨fun n m' => preload_eq_some_iff, exists_preloads_iff, ?_, preloads_straight⟩
  intro hp n m' h
  by_contra hmany
  refine h.not_circles (Program.circles_of_wellFormed hp (Nat.not_le.mp hmany) ?_)
  have hlast : m.program.afterLoads n 0 = some m'.pc := h.afterLoads.1
  rw [hlast]
  rfl

/-- The loads of this program leap to and fro. -/
def leaping : Machine :=
  { program := AddressMap.ofEntries
      [(0, .load 7 249 255), (3, .subleq 249 249 4), (200, .load (-128) 248 3),
        (255, .load 1 255 200)] }

/-- Those of this one go on at the next address. -/
def stepping : Machine :=
  { program := AddressMap.ofEntries
      [(0, .load 0 250 1), (1, .load 7 249 2), (2, .subleq 249 249 3), (3, .load 9 248 4)] }

theorem preload_ends_leaping :
    leaping.program.WellFormed ∧ (∃ m', leaping.preload = some (3, m')) ∧ 3 ≤ 256 ∧
      (∀ a next, stepping.program.successor? a = some next → next = a + 1) ∧
      ∃ n m', stepping.preload = some (n, m') ∧ ∀ i : Nat, i < n → (stepping.fetch i).isLoad := by
  have hwellFormed : leaping.program.WellFormed := by decide +kernel
  have hcount : leaping.preload.map (·.1) = some 3 := by decide +kernel
  have hnext : ∀ a next, stepping.program.successor? a = some next → next = a + 1 := by
    intro a next hsucc
    rcases Program.successor?_eq_some_iff.mp hsucc with ⟨-, v, d, hcell⟩
    simp only [stepping, AddressMap.ofEntries, List.foldl_cons, List.foldl_nil,
      Program.fetch_insert] at hcell
    split at hcell
    · cases hcell
      omega
    split at hcell
    · cases hcell
    split at hcell
    · cases hcell
      omega
    split at hcell
    · cases hcell
      omega
    · cases hcell
  rcases Option.map_eq_some_iff.mp hcount with ⟨⟨n, m'⟩, hpreload, hn⟩
  obtain rfl : n = 3 := hn
  rcases preload_ends leaping with ⟨hloop, -, hbound, -⟩
  rcases preload_ends stepping with ⟨hloop', -, -, hstraight⟩
  rcases hstraight hnext with ⟨k, m₁, hends, -, hloads, -⟩
  exact ⟨hwellFormed, ⟨m', hpreload⟩, hbound hwellFormed 3 m' ((hloop 3 m').mp hpreload), hnext,
    k, m₁, (hloop' k m₁).mpr hends, hloads⟩

/-- A load that is its own successor is executed for ever. -/
def circling : Machine := { program := AddressMap.ofEntries [(0, .load 5 10 0)] }

theorem not_always_preloaded : ¬∀ m : Machine, m.program.WellFormed →
    ∃ n m', Preloads n m.reset m' ∧ n ≤ 256 := by
  intro hall
  have hwellFormed : circling.program.WellFormed := by decide +kernel
  rcases hall circling hwellFormed with ⟨n, m', h, -⟩
  exact h.not_circles ⟨0, 1, 0, by decide, rfl, by decide +kernel⟩

end Machine

end Subleq
