import Mathlib
import Subleq.Proofs.Boundaries

/-!
# Subleq.Proofs.Range — the range in which comparisons are exact

Conditional branches compare values from -127 to 127 exactly. The machine has one more value, -128,
which no decimal literal gives. It is what the machine's fold leaves alone, and a product can come to
it: -64 and -64 are added without overflow. Nothing else can. Copies, sums and differences are negated
on the way, which turns -128 into 127, and quotients are not negative. So what a statement sees is in
the range of exact comparisons, but for a variable that was multiplied into.
-/

namespace Subleq

open Layout Machine

/-- The clause gives a decimal literal as the value, if it defines a variable. -/
def Clause.DefinesDecimal : Clause → Prop
  | .define _ token => (Text.Decimal.parse? token.toList).isSome = true
  | .operation _ => True

instance (c : Clause) : Decidable c.DefinesDecimal :=
  match c with
  | .define _ token =>
    inferInstanceAs (Decidable ((Text.Decimal.parse? token.toList).isSome = true))
  | .operation _ => isTrue trivial

/-- The pattern of a decimal number is not that of -128. -/
theorem Byte.decode_signed_mem (v : Int) : -127 ≤ decode (signed v) ∧ decode (signed v) ≤ 127 := by
  rw [decode_signed]
  omega

theorem SymbolTable.Yields.decode_mem {t : SymbolTable} {token : String} {pattern : Int}
    (h : t.Yields token pattern) (hdecimal : (Text.Decimal.parse? token.toList).isSome = true) :
    -127 ≤ Byte.decode pattern ∧ Byte.decode pattern ≤ 127 := by
  rcases Option.isSome_iff_exists.mp hdecimal with ⟨numeral, hnumeral⟩
  rw [h.eq_signed hnumeral]
  exact Byte.decode_signed_mem numeral.number

namespace Session

variable {s : Session} {p : Placement} {pc pc' : Int} {σ σ' : Store} {m₀ : Machine} {n k : Nat}

/-- All values of definitions are decimal literals. -/
def DefinesDecimals (s : Session) : Prop :=
  ∀ p ∈ s.listing, ∀ clause ∈ p.clause?, clause.DefinesDecimal

instance (s : Session) : Decidable s.DefinesDecimals :=
  inferInstanceAs (Decidable (∀ p ∈ s.listing, ∀ clause ∈ p.clause?, clause.DefinesDecimal))

/-- In one of its first steps a machine has begun a multiplication into a cell, with operands whose
product is -128. -/
def MultipliedInto (s : Session) (m : Machine) (n : Nat) (c : Int) : Prop :=
  ∃ j < n, ∃ p ∈ s.listing, ∃ a b x y, p.code = .operation (.arith .mul a b c) ∧
    (m.after j).pc = p.start ∧ (m.after j).memory.get? a = some x ∧
    (m.after j).memory.get? b = some y ∧ Byte.product x y = -128

theorem MultipliedInto.mono {c : Int} (h : s.MultipliedInto m₀ n c) (hle : n ≤ k) :
    s.MultipliedInto m₀ k c := by
  rcases h with ⟨j, hj, hrest⟩
  exact ⟨j, Nat.lt_of_lt_of_le hj hle, hrest⟩

/-- Variables that were not multiplied into are in the range in which comparisons are exact. -/
def InRange (s : Session) (m₀ : Machine) (n : Nat) (σ : Store) : Prop :=
  ∀ v ∈ s.symbols.variables, ∀ x, σ v.address = some x →
    (-127 ≤ x ∧ x ≤ 127) ∨ (x = -128 ∧ s.MultipliedInto m₀ n v.address)

theorem InRange.mono (h : s.InRange m₀ n σ) (hle : n ≤ k) : s.InRange m₀ k σ := by
  intro v hv x hx
  rcases h v hv x hx with hmem | ⟨hmin, hmultiplied⟩
  · exact Or.inl hmem
  · exact Or.inr ⟨hmin, hmultiplied.mono hle⟩

/-- The value of a definition is in the range. -/
theorem DefinesDecimals.define_mem (h : s.DefinesDecimals) (hs : s.Sound) (hp : p ∈ s.listing)
    {value a : Int} (hdef : p.code = .define value a) : -127 ≤ value ∧ value ≤ 127 := by
  rcases hs.eq_or_realizes hp with rfl | ⟨clause, hclause, hreal⟩
  · cases hdef
  · have hdecimal := h p hp clause hclause
    rw [hdef] at hreal
    cases hreal with
    | define hname ha hvalue => exact hvalue.decode_mem hdecimal

/-- A piece of code keeps the variables in the range, unless it multiplies. -/
theorem InRange.does (h : s.InRange m₀ n σ) (hs : s.Stepwise) (hdecimals : s.DefinesDecimals)
    (hp : p ∈ s.listing) (hm : (m₀.after n).At s.program p.start σ)
    (hregular : s.Regular p.start σ) (hk : 0 < k) (hdoes : p.code.Does p.start σ pc' σ') :
    s.InRange m₀ (n + k) σ' := by
  have hneeds := hregular.needs hs hp
  intro v hv x hx
  have hold := fun hx => h.mono (Nat.le_add_right n k) v hv x hx
  rw [hdoes.apply (hs.standard.variable_mem hv).2] at hx
  split at hx
  swap
  · exact hold hx
  next c r hstored =>
  split at hx
  swap
  · exact hold hx
  next hsame =>
  cases hx
  rcases Code.stored?_cases hstored hneeds with hdef | hmem | ⟨hmin, a, b, y, z, hcode, ha, hb, hr⟩
  · exact Or.inl (hdecimals.define_mem hs.toSound hp hdef)
  · exact Or.inl hmem
  · -- the product of this very statement
    have hget : ∀ {d w}, d ∈ [a, b] → σ d = some w → (m₀.after n).memory.get? d = some w := by
      intro d w hd hw
      rw [hcode] at hneeds
      rcases hneeds.2.2 d (List.mem_append_left [c] hd) with ⟨_, hoperand⟩
      have hlt := hoperand.lt
      simp only [zero] at hlt
      rw [Memory.get?, Memory.cellOf_eq hoperand.nonneg (by omega), hm.cells, hw]
    refine Or.inr ⟨hmin, n, by omega, p, hp, a, b, y, z, hsame ▸ hcode, hm.pc, ?_, ?_, hr⟩
    · exact hget (by simp) ha
    · exact hget (by simp) hb

end Session

namespace Machine

/-- Whenever a piece of code begins, and after the code, every variable that has a value is in the
range in which comparisons are exact, or it is -128 and a product of -128 was multiplied into it. -/
theorem variables_in_range {source : String} {s : Session}
    (hcompile : Session.compile {} source = (s, none)) (honTime : s.NoLateDefinition)
    (hdecimals : s.DefinesDecimals) (hdata : s.VariableData) (hbranches : s.BranchesToBeginnings)
    (input : Input) (output : String) (n : Nat)
    (hbegins : s.Begins ((ofProgram s.program input output).reset.after n).pc) :
    ∀ v ∈ s.symbols.variables, ∀ x,
      ((ofProgram s.program input output).reset.after n).memory.get? v.address = some x →
      (-127 ≤ x ∧ x ≤ 127) ∨
        (x = -128 ∧ s.MultipliedInto (ofProgram s.program input output).reset n v.address) := by
  have hs : s.Stepwise := ⟨Session.sound_of_compile hcompile, honTime, hdata, hbranches⟩
  have hstart : s.InRange (ofProgram s.program input output).reset 0 fun _ => none := by
    intro v hv x hx
    cases hx
  rcases Session.Regular.induction hs (at_reset s.program input output) hs.regular_start
      (I := fun n _ σ => s.InRange (ofProgram s.program input output).reset n σ) hstart
      (fun hp hm hregular hrange hk hdoes => hrange.does hs hdecimals hp hm hregular hk hdoes)
      (fun hrange _ _ => hrange.mono (Nat.le_succ _)) hbegins with ⟨pc, σ, hm, _, hrange⟩
  intro v hv x hx
  have hmem := hs.standard.variable_mem hv
  simp only [zero] at hmem
  rw [Memory.get?, Memory.cellOf_eq (by omega) (by omega), hm.cells] at hx
  exact hrange v hv x hx

/-- A program that doubles -64. -/
def doubling : String := "DEF a -64\nDEF b 2\nDEF c 0\nMUL a b c"

/-- The machine after the multiplication. -/
def doubled : Machine :=
  (ofProgram (Session.compile {} doubling).1.program (Input.ofScript []) "out").reset.after 24

theorem doubled_eq : doubled.pc = 21 ∧ doubled.memory.get? 247 = some (-128) := by decide +kernel

/-- The variable into which the program multiplies. -/
theorem mem_doubling : (⟨"c", 247, 0, 3⟩ : Variable) ∈
    (Session.compile {} doubling).1.symbols.variables := by decide +kernel

theorem variables_in_range_doubling :
    (Session.compile {} doubling).2 = none ∧ (Session.compile {} doubling).1.NoLateDefinition ∧
      (Session.compile {} doubling).1.DefinesDecimals ∧
      (Session.compile {} doubling).1.VariableData ∧
      (Session.compile {} doubling).1.BranchesToBeginnings ∧
      (Session.compile {} doubling).1.Begins doubled.pc ∧
      (Session.compile {} doubling).1.MultipliedInto (ofProgram
        (Session.compile {} doubling).1.program (Input.ofScript []) "out").reset 24 247 := by
  have hraised : (Session.compile {} doubling).2 = none := by decide +kernel
  have honTime : (Session.compile {} doubling).1.NoLateDefinition := by decide +kernel
  have hdecimals : (Session.compile {} doubling).1.DefinesDecimals := by decide +kernel
  have hdata : (Session.compile {} doubling).1.VariableData := by decide +kernel
  have hbranches : (Session.compile {} doubling).1.BranchesToBeginnings := by decide +kernel
  have hbegins : (Session.compile {} doubling).1.Begins doubled.pc := by decide +kernel
  refine ⟨hraised, honTime, hdecimals, hdata, hbranches, hbegins, ?_⟩
  rcases variables_in_range (Session.compile_eq hraised) honTime hdecimals hdata hbranches
    (Input.ofScript []) "out" 24 hbegins _ mem_doubling _ doubled_eq.2 with hmem | ⟨_, hmultiplied⟩
  · exact absurd hmem.1 (by decide)
  · exact hmultiplied

/-- The range is left by a product. -/
theorem not_all_in_range : ¬∀ (source : String) (s : Session),
    Session.compile {} source = (s, none) → s.errors = [] → s.NoLateDefinition →
      s.DefinesDecimals → s.VariableData → s.BranchesToBeginnings →
      ∀ (input : Input) (output : String) (n : Nat),
        s.Begins ((ofProgram s.program input output).reset.after n).pc →
        ∀ v ∈ s.symbols.variables, ∀ x,
          ((ofProgram s.program input output).reset.after n).memory.get? v.address = some x →
          -127 ≤ x ∧ x ≤ 127 := by
  intro hall
  have hmem := hall doubling _ (Session.compile_eq (by decide +kernel)) (by decide +kernel)
    (by decide +kernel) (by decide +kernel) (by decide +kernel) (by decide +kernel)
    (Input.ofScript []) "out" 24 (by decide +kernel) _ mem_doubling _ doubled_eq.2
  exact absurd hmem.1 (by decide)

end Machine

end Subleq
