import Mathlib
import Subleq.Proofs.Placement
import Subleq.Proofs.Statements

/-!
# Subleq.Proofs.Boundaries — the machine between statements

A program whose operands are variables and whose branches lead to the beginnings of statements is
executed statement by statement. `Session.Regular` is what holds whenever one begins: the constants
and the scratch cells are set up, whatever a variable holds is a byte, and the definitions that stand
before have been carried out. `Regular.walks` leads from the beginning of one statement to the
beginning of the next, and by `Regular.induction` the machine is never at the beginning of a statement
in any other way.
-/

namespace Subleq

open Layout

/-! ## The effect on one cell -/

namespace Code

/-- The cell that a piece of code gives a value, and the value. -/
def stored? (σ : Store) : Code → Option (Int × Int)
  | define v a => some (a, v)
  | operation (.move a b) => (σ a).map fun x => (b, if a = b then 0 else Byte.copied x)
  | operation (.arith op a b c) => do
    let x ← σ a
    let y ← σ b
    let r ← op.result? x y
    return (c, r)
  | _ => none

variable {code : Code} {first pc' a : Int} {σ σ' : Store}

/-- Below the reserved cells only one cell gets another value. -/
theorem Does.apply (h : code.Does first σ pc' σ') (ha : a < zero) :
    σ' a = match code.stored? σ with
      | some (c, r) => if a = c then some r else σ a
      | none => σ a := by
  have hscratch := Store.not_isScratch_of_lt ha
  cases h with
  | preamble hready hnegOne hframe => exact hframe a ha
  | define => simp only [stored?, Function.update_apply]
  | jump => rfl
  | jumpVia hspares => exact hspares.frame a hscratch
  | move hx hgives =>
    simp only [stored?, hx, Option.map_some]
    split
    · next hac => rw [hac, hgives.result]
    · next hac => exact hgives.frame a hac hscratch
  | arith hx hy hr hgives =>
    simp only [stored?, hx, hy, hr, Option.bind_eq_bind, Option.bind_some, Option.pure_def]
    split
    · next hac => rw [hac, hgives.result]
    · next hac => exact hgives.frame a hac hscratch
  | branch hx hy hspares => exact hspares.frame a hscratch

/-- A cell that is stored stays stored. -/
theorem Does.isSome (h : code.Does first σ pc' σ') (ha : a < zero) (hσ : (σ a).isSome) :
    (σ' a).isSome := by
  rw [h.apply ha]
  split
  · split
    · rfl
    · exact hσ
  · exact hσ

/-- The constants and the scratch cells stay set up. -/
theorem Does.setUp (h : code.Does first σ pc' σ')
    (hneeds : code.Needs σ) (hσ : code = .preamble ∨ (σ.Ready ∧ σ negOne = some (-1))) :
    σ'.Ready ∧ σ' negOne = some (-1) := by
  have hnegOne : ¬Store.IsScratch negOne := by
    simp [Store.IsScratch, negOne, tempA]
  have hlt : ∀ c : Int, c < zero → negOne ≠ c := by
    intro c hc
    simp only [zero, negOne] at hc ⊢
    omega
  cases h with
  | preamble hready hnegOne hframe => exact ⟨hready, hnegOne⟩
  | @define v a =>
    rcases hσ with hσ | ⟨hready, hneg⟩
    · cases hσ
    · exact ⟨(hready.gives_update a v).ready hready hneeds.2, by
        rw [Function.update_of_ne (hlt a hneeds.2), hneg]⟩
  | jump => exact ⟨hneeds.1, hneeds.2.1⟩
  | jumpVia hspares =>
    exact ⟨hspares.ready hneeds.1, by rw [hspares.frame _ hnegOne, hneeds.2.1]⟩
  | @move a b x σ' hx hgives =>
    rcases hneeds.2.2 b (by simp [Operation.data]) with ⟨y, hb⟩
    exact ⟨hgives.ready hneeds.1 hb.lt, by
      rw [hgives.frame _ (hlt b hb.lt) hnegOne, hneeds.2.1]⟩
  | @arith op a b c x y r σ' hx hy hr hgives =>
    rcases hneeds.2.2 c (by simp [Operation.data]) with ⟨z, hc⟩
    exact ⟨hgives.ready hneeds.1 hc.lt, by
      rw [hgives.frame _ (hlt c hc.lt) hnegOne, hneeds.2.1]⟩
  | branch hx hy hspares =>
    exact ⟨hspares.ready hneeds.1, by rw [hspares.frame _ hnegOne, hneeds.2.1]⟩

/-- The code goes on after its last cell or where it branches to. -/
theorem Does.goesOn (h : code.Does first σ pc' σ') :
    pc' = first + code.size ∨ code.target? = some pc' := by
  cases h with
  | preamble | define | arith => exact Or.inl rfl
  | move =>
    left
    rw [size_operation]
    rfl
  | jump | jumpVia => exact Or.inr rfl
  | branch =>
    split
    · exact Or.inr rfl
    · left
      rw [size_operation]
      rfl

/-- What is stored is the value of a definition, or it is in the range in which comparisons are
exact, or it is a product of -128. -/
theorem stored?_cases {c r : Int} (h : code.stored? σ = some (c, r)) (hneeds : code.Needs σ) :
    code = .define r c ∨ (-127 ≤ r ∧ r ≤ 127) ∨
      (r = -128 ∧ ∃ a b x y, code = .operation (.arith .mul a b c) ∧ σ a = some x ∧
        σ b = some y ∧ Byte.product x y = -128) := by
  cases code with
  | preamble => cases h
  | define v a =>
    cases h
    exact Or.inl rfl
  | operation op =>
    cases op with
    | jump target => cases h
    | jumpVia a => cases h
    | branch cond a b target => cases h
    | move a b =>
      rcases hneeds.2.2 a (by simp [Operation.data]) with ⟨x, ha⟩
      simp only [stored?, ha.eq, Option.map_some, Option.some.injEq, Prod.mk.injEq] at h
      have hcopied := Byte.copied_mem ha.min ha.max
      right
      left
      rw [← h.2]
      split <;> omega
    | arith op a b c =>
      rcases hneeds.2.2 a (by simp [Operation.data]) with ⟨x, ha⟩
      rcases hneeds.2.2 b (by simp [Operation.data]) with ⟨y, hb⟩
      simp only [stored?, ha.eq, hb.eq, Option.bind_eq_bind, Option.bind_some, Option.pure_def,
        Option.bind_eq_some_iff, Option.some.injEq, Prod.mk.injEq] at h
      obtain ⟨r', hr, rfl, rfl⟩ := h
      rcases Arith.result?_cases ha.min ha.max hb.min hb.max hr with hmem | ⟨hmin, rfl, hproduct⟩
      · exact Or.inr (Or.inl hmem)
      · exact Or.inr (Or.inr ⟨hmin, a, b, x, y, rfl, ha.eq, hb.eq, hproduct⟩)

end Code

/-! ## Programs that are executed statement by statement -/

namespace Session

variable {s : Session} {p : Placement} {pc pc' : Int} {σ σ' : Store}

/-- Every operand that stands for data, on the line of any piece of code, is a variable. -/
def VariableData (s : Session) : Prop :=
  ∀ p ∈ s.listing, ∀ w ∈ p.dataWords, (s.symbols.find? w).isSome = true

instance (s : Session) : Decidable s.VariableData :=
  inferInstanceAs (Decidable (∀ p ∈ s.listing, ∀ w ∈ p.dataWords,
    (s.symbols.find? w).isSome = true))

/-- At the address a piece of code begins, or it is after all code. -/
def Begins (s : Session) (x : Int) : Prop := (∃ p ∈ s.listing, p.start = x) ∨ s.pc ≤ x

instance (s : Session) (x : Int) : Decidable (s.Begins x) :=
  inferInstanceAs (Decidable ((∃ p ∈ s.listing, p.start = x) ∨ s.pc ≤ x))

/-- Branches lead to the beginnings of pieces of code or out of the code. -/
def BranchesToBeginnings (s : Session) : Prop :=
  ∀ p ∈ s.listing, ∀ target ∈ p.code.target?, s.Begins target

instance (s : Session) : Decidable s.BranchesToBeginnings :=
  inferInstanceAs (Decidable (∀ p ∈ s.listing, ∀ target ∈ p.code.target?, s.Begins target))

/-- The program is executed statement by statement. -/
structure Stepwise (s : Session) : Prop extends s.Sound where
  onTime : s.NoLateDefinition
  data : s.VariableData
  branches : s.BranchesToBeginnings

/-- What holds when a piece of code begins. Only the preamble does not rely on what it sets up. -/
structure Regular (s : Session) (pc : Int) (σ : Store) : Prop where
  begins : s.Begins pc
  setUp : pc = 0 ∨ (σ.Ready ∧ σ negOne = some (-1))
  bytes : ∀ v ∈ s.symbols.variables, ∀ x, σ v.address = some x → -128 ≤ x ∧ x ≤ 127
  defined : ∀ p ∈ s.listing, ∀ v a, p.code = .define v a → p.start < pc → (σ a).isSome

/-- No address inside of a piece of code is the beginning of one. -/
theorem Sound.not_begins (h : s.Sound) (hp : p ∈ s.listing) {x : Int} (hlt : p.start < x)
    (hlt' : x < p.start + p.code.size) : ¬s.Begins x := by
  have hmem := h.tiles.mem hp
  rintro (⟨q, hq, hstart⟩ | hend)
  · have hsame := (h.tiles.unique (i := 0) (j := (x - p.start).toNat) hq hp q.code.size_pos
      (by omega) (by omega)).2
    omega
  · omega

theorem Sound.holds (h : s.Sound) (hp : p ∈ s.listing) :
    s.program.Holds p.start (p.code.cells p.start) :=
  fun _ _ hi => h.fetch hp hi

theorem Sound.start_pos (h : s.Sound) (hp : p ∈ s.listing) (hne : p.code ≠ .preamble) :
    0 < p.start := by
  have hle := (h.tiles.mem hp).1
  have hneq : p.start ≠ 0 := by
    intro hzero
    exact hne (congrArg Placement.code (h.tiles.eq_of_start hp h.preamble_mem hzero))
  omega

/-- A data operand of a program in which these are variables is the cell of one. -/
theorem Stepwise.exists_variable (h : s.Stepwise) (hp : p ∈ s.listing)
    {op : Operation Int} (hop : p.code = .operation op) {a : Int} (ha : a ∈ op.data) :
    ∃ v ∈ s.symbols.variables, v.address = a := by
  rcases h.data_mem hp hop ha with ⟨w, hw, hresolves⟩
  rcases Option.isSome_iff_exists.mp (h.data p hp w hw) with ⟨v, hv⟩
  rcases SymbolTable.find?_mem hv with ⟨hmem, rfl⟩
  exact ⟨v, hmem, (h.standard.resolves_name hmem).unique hresolves⟩

theorem Sound.pc_pos (h : s.Sound) : 0 < s.pc := by
  have hmem := (h.tiles.mem h.preamble_mem).2
  have hsize : ((preamble.code.size : Nat) : Int) = 5 := rfl
  simp only [preamble] at hmem hsize
  omega

/-- Nothing is relied on at the first cell. -/
theorem Sound.regular_start (h : s.Sound) : s.Regular 0 fun _ => none := by
  refine ⟨Or.inl ⟨preamble, h.preamble_mem, rfl⟩, Or.inl rfl, by simp, fun q hq _ _ _ hlt => ?_⟩
  have hmem := h.tiles.mem hq
  omega

/-- All variables are stored when an operation begins. -/
theorem Regular.isSome_variable (h : s.Regular p.start σ) (hs : s.Stepwise) (hp : p ∈ s.listing)
    (hop : p.code.isOperation = true) {v : Variable} (hv : v ∈ s.symbols.variables) :
    (σ v.address).isSome := by
  rcases hs.exists_boundary hs.onTime with ⟨k, hk⟩
  rcases hs.defined v hv with ⟨q, hq, value, hcode⟩
  have hbefore := (hk.2 q hq).1 (by rw [hcode]; rfl)
  have hafter := (hk.2 p hp).2 hop
  have hsize := q.code.size_pos
  exact h.defined q hq value v.address hcode (by omega)

theorem Regular.needs (h : s.Regular p.start σ) (hs : s.Stepwise) (hp : p ∈ s.listing) :
    p.code.Needs σ := by
  cases hcode : p.code with
  | preamble => trivial
  | define v a =>
    rcases (hs.define_mem hp hcode).2 with ⟨w, hw, rfl⟩
    have hmem := hs.standard.variable_mem hw
    exact ⟨by omega, hmem.2⟩
  | operation op =>
    have hpos := hs.start_pos hp (by rw [hcode]; simp)
    rcases h.setUp with hzero | ⟨hready, hnegOne⟩
    · omega
    refine ⟨hready, hnegOne, fun a ha => ?_⟩
    rcases hs.exists_variable hp hcode ha with ⟨v, hv, rfl⟩
    have hmem := hs.standard.variable_mem hv
    have hsome := h.isSome_variable hs hp (by rw [hcode]; rfl) hv
    rcases Option.isSome_iff_exists.mp hsome with ⟨x, hx⟩
    have hbyte := h.bytes v hv x hx
    exact ⟨x, by omega, hmem.2, hx, hbyte.1, hbyte.2⟩

/-- What a piece of code does leads to the beginning of one. -/
theorem Regular.does (h : s.Regular p.start σ) (hs : s.Stepwise) (hp : p ∈ s.listing)
    (hdoes : p.code.Does p.start σ pc' σ') : s.Regular pc' σ' := by
  have hneeds := h.needs hs hp
  have hcell : ∀ {v : Variable}, v ∈ s.symbols.variables → v.address < zero :=
    fun hv => (hs.standard.variable_mem hv).2
  constructor
  case begins =>
    rcases hdoes.goesOn with rfl | htarget
    · rcases hs.tiles.next hp with hend | ⟨q, hq, hstart⟩
      · exact Or.inr (Int.le_of_eq hend.symm)
      · exact Or.inl ⟨q, hq, hstart⟩
    · exact hs.branches p hp pc' htarget
  case setUp =>
    refine Or.inr (hdoes.setUp hneeds ?_)
    rcases h.setUp with hzero | hready
    · -- nothing but the preamble begins at the first cell
      left
      by_contra hne
      have hpos := hs.start_pos hp hne
      omega
    · exact Or.inr hready
  case bytes =>
    intro v hv x hx
    rw [hdoes.apply (hcell hv)] at hx
    split at hx
    · next c r hstored =>
      split at hx
      · cases hx
        rcases Code.stored?_cases hstored hneeds with hdef | hmem | ⟨hmin, _⟩
        · exact (hs.define_mem hp hdef).1
        · omega
        · omega
      · exact h.bytes v hv x hx
    · exact h.bytes v hv x hx
  case defined =>
    intro q hq value a hcode hlt
    rcases (hs.define_mem hq hcode).2 with ⟨v, hv, rfl⟩
    cases hop : p.code.isOperation with
    | true => exact hdoes.isSome (hcell hv) (h.isSome_variable hs hp hop hv)
    | false =>
      -- nothing but its own definition comes between a definition and the next statement
      have hnext : pc' = p.start + p.code.size := by
        rcases hdoes.goesOn with hnext | htarget
        · exact hnext
        · cases hp' : p.code with
          | operation op =>
            rw [hp'] at hop
            cases hop
          | preamble | define =>
            rw [hp'] at htarget
            cases htarget
      by_cases hbefore : q.start < p.start
      · exact hdoes.isSome (hcell hv) (h.defined q hq value v.address hcode hbefore)
      · have hsame : q = p := by
          have huniq := hs.tiles.unique (i := 0) (j := (q.start - p.start).toNat) hq hp
            q.code.size_pos (by omega) (by omega)
          exact huniq.1
        rw [hdoes.apply (hcell hv), ← hsame, hcode]
        simp [Code.stored?]

open Machine

theorem Sound.room_lt (h : s.Sound) : s.pc < maxPc := by
  have hroom := h.room
  simp only [programLimit, maxPc] at hroom ⊢
  omega

/-- From its beginning a piece of code leads to the beginning of one, or it is stuck. -/
theorem Regular.walks (h : s.Regular p.start σ) (hs : s.Stepwise) (hp : p ∈ s.listing) :
    (∃ n pc' σ', 0 < n ∧ Leads s.program p.start (p.start + p.code.size) n p.start σ pc' σ' ∧
      p.code.Does p.start σ pc' σ') ∨
    Stuck s.program p.start σ p.code := by
  have hmem := hs.tiles.mem hp
  have hroom := hs.room_lt
  refine Machine.walks (hs.holds hp) hmem.1 (by omega) (fun target ht => ?_) (h.needs hs hp)
  cases hcode : p.code with
  | operation op =>
    rw [hcode] at ht
    have hbyte := hs.target_mem hp hcode ht
    simp only [maxPc]
    omega
  | preamble | define =>
    rw [hcode] at ht
    cases ht

/-! ## After the code -/

theorem Sound.fetch_of_le (h : s.Sound) {x : Int} (hx : s.pc ≤ x) : s.program.fetch x = .empty := by
  simp [Program.fetch, h.get?_of_le (Or.inr hx)]

end Session

namespace Machine

variable {m : Machine} {p : Program} {pc : Int} {σ : Store}

/-- Before its first step a machine has nothing stored. -/
theorem at_reset (p : Program) (input : Input) (output : String) :
    (ofProgram p input output).reset.At p 0 fun _ => none := by
  refine ⟨rfl, wired_reset p input output, rfl, fun a => ?_⟩
  change (∅ : AddressMap Int)[a]? = none
  simp

/-- An empty cell, also one beyond the program store, changes nothing but the program counter. -/
theorem At.pass (hm : m.At p pc σ) (hempty : p.fetch pc = .empty) :
    ∃ pc', pc ≤ pc' ∧ m.step.2.At p pc' σ := by
  rcases Int.lt_or_le pc maxPc with hlt | hle
  · have hstep := step_of_empty (hm.pc.symm ▸ hlt) (by rw [fetch, hm.program, hm.pc, hempty])
    refine ⟨pc + 1, by omega, (program_step m).trans hm.program, wired_step hm.wired, ?_, ?_⟩
    · rw [hstep, settle_pc, hm.pc]
    · rw [hstep, settle_memory]
      exact hm.cells
  · rw [step_of_halted (hm.pc.symm ▸ hle)]
    exact ⟨pc, Int.le_refl pc, hm.program, hm.wired, hm.pc, hm.cells⟩

/-- Where only empty cells are left, the machine halts. -/
theorem At.halts (hm : m.At p pc σ) (hempty : ∀ x, pc ≤ x → p.fetch x = .empty) :
    ∃ n m₁ m₂ pc', Runs n m m₁ ∧ m₁.step = (.halted, m₂) ∧ m₂.At p pc' σ := by
  induction hroom : (maxPc - pc).toNat generalizing m pc with
  | zero =>
    have hstep := step_of_halted (m := m) (by rw [hm.pc]; omega)
    exact ⟨0, m, _, pc, .refl m, hstep, hm.program, hm.wired, hm.pc, hm.cells⟩
  | succ room ih =>
    have hstep := step_of_empty (m := m) (by rw [hm.pc]; omega)
      (by rw [fetch, hm.program, hm.pc, hempty pc (Int.le_refl pc)])
    have hnext : m.step.2.At p (pc + 1) σ :=
      ⟨(program_step m).trans hm.program, wired_step hm.wired, by rw [hstep, settle_pc, hm.pc], by
        rw [hstep, settle_memory]
        exact hm.cells⟩
    have hend : m.step.1 = goesOn (pc + 1) := by
      rw [hstep, settle_fst, settle_pc, hm.pc]
    by_cases hlast : maxPc ≤ pc + 1
    · rw [goesOn, if_pos hlast] at hend
      exact ⟨0, m, m.step.2, pc + 1, .refl m, Prod.ext hend rfl, hnext⟩
    · rw [goesOn, if_neg hlast] at hend
      rcases ih hnext (fun x hx => hempty x (by omega)) (by omega) with
        ⟨n, m₁, m₂, pc', hruns, hhalt, hm₂⟩
      exact ⟨n + 1, m₁, m₂, pc', .step (Prod.ext hend rfl) hruns, hhalt, hm₂⟩

end Machine

/-! ## Every beginning -/

namespace Session

open Machine

variable {s : Session} {p : Placement} {pc pc' : Int} {σ σ' : Store}

/-- What holds at first, is kept by all code, and does not depend on the program counter after the
code holds whenever a piece of code begins. It may speak of the number of steps made. -/
theorem Regular.induction {I : Nat → Int → Store → Prop} {m₀ : Machine} {pc₀ : Int} {σ₀ : Store}
    (hs : s.Stepwise) (hm₀ : m₀.At s.program pc₀ σ₀) (hregular : s.Regular pc₀ σ₀)
    (hstart : I 0 pc₀ σ₀)
    (hdoes : ∀ {n k p pc' σ σ'}, p ∈ s.listing → (m₀.after n).At s.program p.start σ →
      s.Regular p.start σ → I n p.start σ → 0 < k → p.code.Does p.start σ pc' σ' →
      I (n + k) pc' σ')
    (hout : ∀ {n pc pc' σ}, I n pc σ → s.pc ≤ pc → pc ≤ pc' → I (n + 1) pc' σ)
    {n : Nat} (hn : s.Begins (m₀.after n).pc) :
    ∃ pc σ, (m₀.after n).At s.program pc σ ∧ s.Regular pc σ ∧ I n pc σ := by
  -- the induction is on the number of steps from some beginning on
  suffices key : ∀ d j pc σ, j + d = n → (m₀.after j).At s.program pc σ → s.Regular pc σ →
      I j pc σ → ∃ pc σ, (m₀.after n).At s.program pc σ ∧ s.Regular pc σ ∧ I n pc σ from
    key n 0 pc₀ σ₀ (by omega) hm₀ hregular hstart
  intro d
  induction d using Nat.strong_induction_on with
  | _ d ih =>
    intro j pc σ hj hm hreg hI
    rcases Nat.eq_zero_or_pos d with rfl | hd
    · rw [Nat.add_zero] at hj
      subst hj
      exact ⟨pc, σ, hm, hreg, hI⟩
    rcases hreg.begins with ⟨p, hp, rfl⟩ | hend
    · rcases hreg.walks hs hp with ⟨k, pc', σ', hk, hwalk, hdo⟩ | hstuck
      · rcases hwalk _ hm with ⟨m', hruns, hm', hinside⟩
        have hafter : m' = m₀.after (j + k) := by
          rw [hruns.eq_after, after_add]
        by_cases hshort : d < k
        · -- the machine is still inside of the code
          exfalso
          have hkd : k = d + (k - d) := by omega
          rw [hkd] at hruns
          rcases hruns.split with ⟨m₁, hfirst, _⟩
          have hin := hinside d m₁ hd hshort hfirst
          rw [hfirst.eq_after, ← after_add, hj] at hin
          exact hs.not_begins hp hin.1 hin.2 hn
        · exact ih (d - k) (by omega) (j + k) pc' σ' (by omega) (hafter ▸ hm')
            (hreg.does hs hp hdo) (hdoes hp hm hreg hI hk hdo)
      · -- code that is stuck is never left, so no other beginning comes after it
        exfalso
        rcases hstuck.inside _ hm d hd with ⟨m₁, hruns, hin⟩
        rw [hruns.eq_after, ← after_add, hj] at hin
        exact hs.not_begins hp hin.1 hin.2 hn
    · -- after the code the cells are empty, and every address is a beginning
      rcases hm.pass (hs.fetch_of_le hend) with ⟨pc', hle, hm'⟩
      rw [← after_succ] at hm'
      have hreg' : s.Regular pc' σ := by
        refine ⟨Or.inr (Int.le_trans hend hle), ?_, hreg.bytes, fun q hq v a hcode hlt => ?_⟩
        · rcases hreg.setUp with hzero | hready
          · have hpos := hs.pc_pos
            omega
          · exact Or.inr hready
        · have hmem := (hs.tiles.mem hq).2
          have hsize := q.code.size_pos
          exact hreg.defined q hq v a hcode (by omega)
      exact ih (d - 1) (by omega) (j + 1) pc' σ (by omega) hm' hreg' (hout hI hend hle)

end Session

end Subleq
