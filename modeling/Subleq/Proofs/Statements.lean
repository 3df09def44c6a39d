import Mathlib
import Subleq.Proofs.Loops

/-!
# Subleq.Proofs.Statements — what the code of a statement does

What is known of each block is put together here. `Code.Does` says what a piece of code makes of
the stored cells and where it goes on, `Code.Needs` what it relies on. `walks` ties both to the
machine: from its first cell the code either does what it should, and is not left on the way, or it
is a division that never ends.
-/

namespace Subleq

open Layout

namespace Code

/-- The address that a piece of code may branch to. -/
def target? : Code → Option Int
  | operation op => op.target?
  | _ => none

/-- What a piece of code relies on: a definition has a variable's cell, and for an operation the
constants are set up, the scratch cells are stored, and its operands are variables' cells that hold
bytes. -/
def Needs (σ : Store) : Code → Prop
  | preamble => True
  | define _ a => 0 ≤ a ∧ a < zero
  | operation op => σ.Ready ∧ σ negOne = some (-1) ∧ ∀ a ∈ op.data, ∃ x, σ.Operand a x

/-- What a piece of code with its first cell at `first` makes of the stored cells, and the address
at which it goes on. -/
inductive Does (first : Int) (σ : Store) : Code → Int → Store → Prop where
  | preamble {σ' : Store} (hready : σ'.Ready) (hnegOne : σ' negOne = some (-1))
      (hframe : ∀ a, a < zero → σ' a = σ a) : Does first σ preamble (first + 5) σ'
  | define {v a : Int} :
      Does first σ (define v a) (first + 1) (Function.update σ a (some v))
  | jump {target : Int} : Does first σ (operation (.jump target)) target σ
  | jumpVia {a : Int} {σ' : Store} (hspares : σ.Spares σ') :
      Does first σ (operation (.jumpVia a)) tempA σ'
  /-- A cell that is moved to itself is cleared before it is read. -/
  | move {a b x : Int} {σ' : Store} (hx : σ a = some x)
      (hgives : σ.Gives σ' b (if a = b then 0 else Byte.copied x)) :
      Does first σ (operation (.move a b)) (first + 4) σ'
  | arith {op : Arith} {a b c x y r : Int} {σ' : Store} (hx : σ a = some x) (hy : σ b = some y)
      (hr : op.result? x y = some r) (hgives : σ.Gives σ' c r) :
      Does first σ (operation (.arith op a b c)) (first + (operation (.arith op a b c)).size) σ'
  | branch {cond : Condition} {a b target x y : Int} {σ' : Store} (hx : σ a = some x)
      (hy : σ b = some y) (hspares : σ.Spares σ') :
      Does first σ (operation (.branch cond a b target))
        (if cond.Holds x y then target else first + 14) σ'

end Code

namespace Machine

variable {p : Program} {first last o pc a b c x y z : Int} {σ : Store}

/-! ## Loads -/

/-- A row of loads, each of which goes on at the next cell, is done one by one. -/
theorem leads_loads (loads : List (Int × Int))
    (hcells : ∀ (i : Nat) v d, loads[i]? = some (v, d) →
      p.fetch (pc + i) = .load v d (pc + i + 1))
    (hdests : ∀ load ∈ loads, 0 ≤ load.2 ∧ load.2 < ioPort) (hfirst : first ≤ pc)
    (hlast : pc + loads.length ≤ last) (hroom : last < maxPc) :
    Leads p first last loads.length pc σ (pc + loads.length)
      (loads.foldl (fun σ load => Function.update σ load.2 (some load.1)) σ) := by
  induction loads generalizing pc σ with
  | nil => simpa using Leads.refl p first last pc σ
  | cons load loads ih =>
    simp only [List.length_cons] at hlast ⊢
    push_cast at hlast ⊢
    rcases hdests load (by simp) with ⟨hd, hd'⟩
    have hcell : p.fetch pc = .load load.1 load.2 (pc + 1) := by
      simpa using hcells 0 load.1 load.2 rfl
    have hwalk : Leads p first last 1 pc σ (pc + 1) _ :=
      leads_load hcell hd hd' (by omega) (by omega)
    have hrest : ∀ (i : Nat) v d, loads[i]? = some (v, d) →
        p.fetch (pc + 1 + i) = .load v d (pc + 1 + i + 1) := by
      intro i v d hi
      have hadd : pc + 1 + (i : Int) = pc + ((i + 1 : Nat) : Int) := by
        push_cast
        omega
      rw [hadd]
      exact hcells (i + 1) v d (by simpa using hi)
    have hwalks := hwalk.trans (ih hrest (fun l hl => hdests l (List.mem_cons_of_mem load hl))
      (by omega) (by omega)) fun _ => ⟨by omega, by omega⟩
    have hadd : 1 + loads.length = loads.length + 1 := by omega
    have hadd' : pc + 1 + (loads.length : Int) = pc + (loads.length + 1) := by omega
    rw [hadd, hadd'] at hwalks
    exact hwalks

theorem leads_preamble (hcells : p.Holds o (Code.preamble.cells o)) (hroom : o + 5 < maxPc) :
    ∃ σ', Leads p o (o + 5) 5 o σ (o + 5) σ' ∧ Code.preamble.Does o σ (o + 5) σ' := by
  rw [Code.cells_preamble] at hcells
  have hloads : ∀ (i : Nat) v d,
      [((0 : Int), zero), (-1, negOne), (0, tempA), (0, tempB), (0, tempC)][i]? = some (v, d) →
      p.fetch (o + i) = .load v d (o + i + 1) := by
    intro i v d hi
    apply hcells
    have hlt := (List.getElem?_eq_some_iff.mp hi).1
    simp only [List.length_cons, List.length_nil] at hlt
    interval_cases i <;> cases hi <;> simp <;> omega
  refine ⟨_, leads_loads _ hloads ?_ (Int.le_refl o) (by simp) hroom, .preamble ⟨?_, ?_⟩ ?_ ?_⟩
  · simp [zero, negOne, tempA, tempB, tempC, ioPort]
  · simp [zero, negOne, tempA, tempB, tempC]
  · intro a ha
    simp only [Store.IsScratch, tempA, tempC] at ha
    have hcases : a = 251 ∨ a = 252 ∨ a = 253 := by omega
    rcases hcases with rfl | rfl | rfl <;>
      simp [zero, negOne, tempA, tempB, tempC]
  · simp [zero, negOne, tempA, tempB, tempC]
  · intro a ha
    simp only [zero] at ha
    simp only [List.foldl_cons, List.foldl_nil, Function.update_apply, zero, negOne, tempA, tempB,
      tempC]
    repeat rw [if_neg (by omega)]

theorem leads_define {v : Int} (hcells : p.Holds o ((Code.define v a).cells o))
    (ha : 0 ≤ a ∧ a < zero) (hroom : o + 1 < maxPc) :
    Leads p o (o + 1) 1 o σ (o + 1) (Function.update σ a (some v)) := by
  rw [Code.cells_define] at hcells
  have hcell : p.fetch o = .load v a (o + 1) := by
    simpa using hcells 0 _ rfl
  have ha' : a < ioPort := by
    simp only [zero, ioPort] at ha ⊢
    omega
  exact leads_load hcell ha.1 ha' (by omega) hroom

/-! ## Any code -/

/-- The code is a division without a result, and it goes on inside its block for any number of
steps. -/
structure Stuck (p : Program) (o : Int) (σ : Store) (code : Code) : Prop where
  division : ∃ op a b c x y, code = .operation (.arith op a b c) ∧ σ a = some x ∧ σ b = some y ∧
    op.result? x y = none
  inside : ∀ m : Machine, m.At p o σ → ∀ n, 0 < n →
    ∃ m', Runs n m m' ∧ o < m'.pc ∧ m'.pc < o + code.size

theorem walks_arith {op : Arith}
    (hcells : p.Holds o ((Code.operation (.arith op a b c)).cells o)) (ho : 0 ≤ o)
    (hroom : o + (Code.operation (.arith op a b c)).size < maxPc) (hσ : σ.Ready)
    (hnegOne : σ negOne = some (-1)) (ha : σ.Operand a x) (hb : σ.Operand b y)
    (hc : σ.Operand c z) :
    (∃ n pc' σ', 0 < n ∧ Leads p o (o + (Code.operation (.arith op a b c)).size) n o σ pc' σ' ∧
      (Code.operation (.arith op a b c)).Does o σ pc' σ') ∨
    Stuck p o σ (.operation (.arith op a b c)) := by
  have hsize := Code.size_operation (.arith op a b c)
  cases op with
  | add =>
    have hlength : (((Code.operation (.arith .add a b c)).size : Nat) : Int) = 5 :=
      congrArg Nat.cast hsize
    rw [hlength] at hroom
    rcases leads_add hcells ho hroom hσ ha hb hc.destination with ⟨σ', hwalk, hgives, _⟩
    rw [← hlength] at hwalk
    exact Or.inl ⟨5, _, σ', by omega, hwalk, .arith ha.eq hb.eq rfl hgives⟩
  | sub =>
    have hlength : (((Code.operation (.arith .sub a b c)).size : Nat) : Int) = 9 :=
      congrArg Nat.cast hsize
    rw [hlength] at hroom
    rcases leads_sub hcells ho hroom hσ ha hb hc.destination with ⟨σ', hwalk, hgives, _⟩
    rw [← hlength] at hwalk
    exact Or.inl ⟨9, _, σ', by omega, hwalk, .arith ha.eq hb.eq rfl hgives⟩
  | mul =>
    have hlength : (((Code.operation (.arith .mul a b c)).size : Nat) : Int) = 13 :=
      congrArg Nat.cast hsize
    rw [hlength] at hroom
    rcases leads_mul hcells ho hroom hσ hnegOne ha hb hc with ⟨σ', hwalk, hgives⟩
    rw [← hlength] at hwalk
    refine Or.inl ⟨_, _, σ', ?_, hwalk, .arith ha.eq hb.eq rfl hgives⟩
    split <;> omega
  | div =>
    have hlength : (((Code.operation (.arith .div a b c)).size : Nat) : Int) = 14 :=
      congrArg Nat.cast hsize
    rw [hlength] at hroom
    -- only a division may have no result, and then its loop is never left
    cases hq : Byte.divide? (Byte.copied x) (Byte.copied y) with
    | some q =>
      rcases leads_div hcells ho hroom hσ hnegOne ha hb hc hq with ⟨n, σ', hn, hwalk, hgives⟩
      rw [← hlength] at hwalk
      exact Or.inl ⟨n, _, σ', hn, hwalk, .arith ha.eq hb.eq hq hgives⟩
    | none =>
      refine Or.inr ⟨⟨.div, a, b, c, x, y, rfl, ha.eq, hb.eq, hq⟩, fun m hm n hn => ?_⟩
      rcases runs_div hcells ho hroom hσ hnegOne ha hb hc hq hm n with ⟨m', hruns, hinside⟩
      rw [hlength]
      exact ⟨m', hruns, hinside hn⟩

/-- From its first cell a piece of code does what it should, or it is stuck. -/
theorem walks {code : Code} (hcells : p.Holds o (code.cells o)) (ho : 0 ≤ o)
    (hroom : o + code.size < maxPc) (htarget : ∀ t, code.target? = some t → t < maxPc)
    (hneeds : code.Needs σ) :
    (∃ n pc' σ', 0 < n ∧ Leads p o (o + code.size) n o σ pc' σ' ∧ code.Does o σ pc' σ') ∨
    Stuck p o σ code := by
  cases code with
  | preamble =>
    rcases leads_preamble (σ := σ) hcells hroom with ⟨σ', hwalk, hdoes⟩
    exact Or.inl ⟨5, _, σ', by omega, hwalk, hdoes⟩
  | define v a => exact Or.inl ⟨1, _, _, by omega, leads_define hcells hneeds hroom, .define⟩
  | operation op =>
    rcases hneeds with ⟨hσ, hnegOne, hdata⟩
    cases op with
    | jump target =>
      exact Or.inl ⟨1, _, _, by omega, leads_jump hcells hroom (htarget target rfl) hσ, .jump⟩
    | jumpVia a =>
      rcases hdata a (by simp [Operation.data]) with ⟨x, ha⟩
      rcases leads_jumpVia hcells ho hroom hσ ha with ⟨σ', hwalk, hspares⟩
      exact Or.inl ⟨4, _, σ', by omega, hwalk, .jumpVia hspares⟩
    | move a b =>
      rcases hdata a (by simp [Operation.data]) with ⟨x, ha⟩
      rcases hdata b (by simp [Operation.data]) with ⟨y, hb⟩
      rcases leads_move hcells ho hroom hσ ha hb.destination with ⟨σ', hwalk, hgives, _⟩
      exact Or.inl ⟨4, _, σ', by omega, hwalk, .move ha.eq hgives⟩
    | arith op a b c =>
      rcases hdata a (by simp [Operation.data]) with ⟨x, ha⟩
      rcases hdata b (by simp [Operation.data]) with ⟨y, hb⟩
      rcases hdata c (by simp [Operation.data]) with ⟨z, hc⟩
      exact walks_arith hcells ho hroom hσ hnegOne ha hb hc
    | branch cond a b target =>
      rcases hdata a (by simp [Operation.data]) with ⟨x, ha⟩
      rcases hdata b (by simp [Operation.data]) with ⟨y, hb⟩
      have hsize : (Code.operation (.branch cond a b target)).size = 14 := Code.size_operation _
      rw [hsize] at hroom ⊢
      rcases leads_branch hcells ho hroom (htarget target rfl) hσ ha hb with
        ⟨n, σ', hn, hwalk, hspares⟩
      exact Or.inl ⟨n, _, σ', hn.1, hwalk, .branch ha.eq hb.eq hspares⟩

end Machine

end Subleq
