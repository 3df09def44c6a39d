import Mathlib
import Subleq.Proofs.Placement

/-!
# Subleq.Proofs.Meaning — what source programs mean

An interpreter that knows neither cells nor scratch space. Its state is an address, which stands
for the statement whose code begins there, and the values of the names. What the operations compute
is said in terms of integers (`Arith.result?`):

* a value is copied as it is, but for -128, whose negative is no byte;
* sums and differences are taken modulo 255;
* a product is a repeated sum;
* a quotient is the integer quotient where the divisor is positive and the dividend is not negative.
  Elsewhere `Byte.divide?` says what counting subtractions modulo 255 comes to, and that it does not
  come to an end if something positive is divided by zero.
-/

namespace Subleq

open Layout

/-! ## Arithmetic -/

namespace Byte

/-- A value after it has been negated twice. -/
def copied (x : Int) : Int := if x = -128 then 127 else x

/-- The representative modulo 255 that lies in `[-127, 127]`. -/
def residue (x : Int) : Int := (x + 127) % 255 - 127

/-- Adds `x` to zero as often as `y` says; not at all if `y` is not positive. -/
def product (x y : Int) : Int := (fun r => fold (r + copied x))^[(copied y).toNat] 0

/-- How often `x` is subtracted from `y`, modulo 255, until nothing positive is left; a remainder of
exactly zero counts. Nothing if that never happens. -/
def divide? (x y : Int) : Option Int :=
  if 0 < x then
    if 0 ≤ y then some (y / x)
    else if -128 ≤ y - x then some 0
    else some ((y + 255) / x)
  else if x = 0 then
    if 0 < y then none else if y = 0 then some 1 else some 0
  else
    if y < x then some 0 else if y = x then some 1 else some ((127 - y) / -x)

theorem copied_mem {x : Int} (hx : -128 ≤ x) (hx' : x ≤ 127) : -127 ≤ copied x ∧ copied x ≤ 127 := by
  unfold copied
  split <;> omega

theorem copied_cases (x : Int) : (x = -128 ∧ copied x = 127) ∨ (x ≠ -128 ∧ copied x = x) := by
  unfold copied
  split_ifs <;> omega

theorem residue_mem (x : Int) : -127 ≤ residue x ∧ residue x ≤ 127 := by
  unfold residue
  omega

@[simp] theorem fold_zero : fold 0 = 0 := rfl

theorem fold_cases (v : Int) : (v < -128 ∧ fold v = v + 255) ∨ (127 < v ∧ fold v = v - 255) ∨
    (-128 ≤ v ∧ v ≤ 127 ∧ fold v = v) := by
  unfold fold
  split_ifs <;> omega

theorem fold_neg {x : Int} (hx : -128 ≤ x) (hx' : x ≤ 127) : fold (-x) = -copied x := by
  have hneg := fold_cases (-x)
  have hcopied := copied_cases x
  omega

/-- A value that is negated twice arrives as its copy. -/
theorem fold_neg_twice {x : Int} (hx : -128 ≤ x) (hx' : x ≤ 127) : fold (-fold (-x)) = copied x := by
  have hneg := fold_cases (-x)
  have hcopy := fold_cases (-fold (-x))
  unfold copied
  split <;> omega

/-- Two values that are collected with their signs changed arrive as their sum. -/
theorem fold_sum {x y : Int} (hx : -128 ≤ x) (hx' : x ≤ 127) (hy : -128 ≤ y) (hy' : y ≤ 127) :
    fold (-fold (fold (-x) - y)) = residue (x + y) := by
  have hneg := fold_cases (-x)
  have hboth := fold_cases (fold (-x) - y)
  have hsum := fold_cases (-fold (fold (-x) - y))
  unfold residue
  omega

theorem fold_difference {x y : Int} (hx : -128 ≤ x) (hx' : x ≤ 127) (hy : -128 ≤ y)
    (hy' : y ≤ 127) :
    fold (-fold (-fold (fold (-x) - fold (-y)))) = residue (y - x) := by
  have hnegx := fold_cases (-x)
  have hnegy := fold_cases (-y)
  generalize fold (-x) = u at *
  generalize fold (-y) = w at *
  have hboth := fold_cases (u - w)
  generalize fold (u - w) = t at *
  have hcopy := fold_cases (-t)
  generalize fold (-t) = r at *
  have hlast := fold_cases (-r)
  unfold residue
  omega

theorem fold_mem {x y : Int} (hx : -128 ≤ x) (hx' : x ≤ 127) (hy : -128 ≤ y) (hy' : y ≤ 127) :
    -128 ≤ fold (y - x) ∧ fold (y - x) ≤ 127 := by
  unfold fold
  split <;> (try split) <;> omega

/-- The integer quotient, rounded down. -/
theorem divide?_of_pos {x y : Int} (hx : 0 < x) (hy : 0 ≤ y) : divide? x y = some (y / x) := by
  unfold divide?
  rw [if_pos hx, if_pos hy]

theorem divide?_eq_none_iff {x y : Int} : divide? x y = none ↔ x = 0 ∧ 0 < y := by
  unfold divide?
  split_ifs <;> simp <;> omega

theorem product_mem {x y : Int} (hx : -128 ≤ x) (hx' : x ≤ 127) :
    -128 ≤ product x y ∧ product x y ≤ 127 := by
  unfold product
  have hcopied := copied_mem hx hx'
  -- every partial sum is a byte
  induction (copied y).toNat with
  | zero => simp
  | succ n ih =>
    rw [Function.iterate_succ_apply']
    have hneg : fold ((fun r => fold (r + copied x))^[n] 0 + copied x) =
        fold ((fun r => fold (r + copied x))^[n] 0 - -copied x) := by
      rw [Int.sub_neg]
    rw [hneg]
    exact fold_mem (by omega) (by omega) ih.1 ih.2

theorem divide?_mem {x y q : Int} (hx : -127 ≤ x) (hx' : x ≤ 127) (hy : -127 ≤ y) (hy' : y ≤ 127)
    (h : divide? x y = some q) : 0 ≤ q ∧ q ≤ 127 := by
  unfold divide? at h
  split_ifs at h with hpos hnonneg hnear hzero hypos hyzero hlow hsame <;> cases h
  · exact ⟨Int.ediv_nonneg hnonneg (Int.le_of_lt hpos),
      Int.le_trans (Int.ediv_le_self x hnonneg) hy'⟩
  · omega
  · have hsum : 0 ≤ y + 255 := by omega
    constructor
    · exact Int.ediv_nonneg hsum (Int.le_of_lt hpos)
    · have hlt : (y + 255) / x < 128 := by
        rw [Int.ediv_lt_iff_lt_mul hpos]
        omega
      omega
  · omega
  · omega
  · omega
  · omega
  · have hdivisor : 0 < -x := by omega
    constructor
    · exact Int.ediv_nonneg (by omega) (Int.le_of_lt hdivisor)
    · have hlt : (127 - y) / -x < 128 := by
        rw [Int.ediv_lt_iff_lt_mul hdivisor]
        omega
      omega

end Byte

/-- What an operation computes from the values of its first two operands, if it comes to an end. -/
def Arith.result? (op : Arith) (x y : Int) : Option Int :=
  match op with
  | add => some (Byte.residue (x + y))
  | sub => some (Byte.residue (y - x))
  | mul => some (Byte.product x y)
  | div => Byte.divide? (Byte.copied x) (Byte.copied y)

/-- The branch is taken. -/
def Condition.Holds (cond : Condition) (x y : Int) : Prop :=
  match cond with
  | greater => Byte.copied y < Byte.copied x
  | atMost => Byte.copied x ≤ Byte.copied y

instance (cond : Condition) (x y : Int) : Decidable (cond.Holds x y) :=
  match cond with
  | .greater => inferInstanceAs (Decidable (_ < _))
  | .atMost => inferInstanceAs (Decidable (_ ≤ _))

/-- Only a product can be -128. -/
theorem Arith.result?_cases {op : Arith} {x y r : Int} (hx : -128 ≤ x) (hx' : x ≤ 127)
    (hy : -128 ≤ y) (hy' : y ≤ 127) (h : op.result? x y = some r) :
    (-127 ≤ r ∧ r ≤ 127) ∨ (r = -128 ∧ op = mul ∧ Byte.product x y = -128) := by
  have hcx := Byte.copied_mem hx hx'
  have hcy := Byte.copied_mem hy hy'
  cases op with
  | add =>
    cases h
    exact Or.inl (Byte.residue_mem (x + y))
  | sub =>
    cases h
    exact Or.inl (Byte.residue_mem (y - x))
  | mul =>
    have hmem := Byte.product_mem (y := y) hx hx'
    cases h
    by_cases hmin : Byte.product x y = -128
    · exact Or.inr ⟨hmin, rfl, hmin⟩
    · exact Or.inl ⟨by omega, hmem.2⟩
  | div =>
    have hmem := Byte.divide?_mem hcx.1 hcx.2 hcy.1 hcy.2 h
    exact Or.inl ⟨by omega, hmem.2⟩

/-! ## The interpreter -/

/-- The address of an operand. -/
def SymbolTable.address? (t : SymbolTable) (token : String) : Option Int :=
  (t.address token).outcome.1.toOption

/-- The pattern that a definition stores. -/
def SymbolTable.pattern? (t : SymbolTable) (token : String) : Option Int :=
  (t.value token).outcome.1.toOption

theorem SymbolTable.Resolves.address?_eq {t : SymbolTable} {token : String} {a : Int}
    (h : t.Resolves token a) : t.address? token = some a := by
  unfold Resolves at h
  simp [address?, h, Except.toOption]

theorem SymbolTable.Yields.pattern?_eq {t : SymbolTable} {token : String} {pattern : Int}
    (h : t.Yields token pattern) : t.pattern? token = some pattern := by
  unfold Yields at h
  simp [pattern?, h, Except.toOption]

namespace Source

/-- A statement with the address at which its code begins and the one at which that ends. -/
structure Line where
  start : Int
  next : Int
  clause : Clause
deriving Repr, DecidableEq

/-- Where a program is, and the values of its names. -/
structure State where
  pc : Int
  vars : String → Option Int

/-- At the first statement, when no name has a value. -/
def State.start : State := ⟨Code.preamble.size, fun _ => none⟩

/-- A name gets a value, and the program goes on at an address. -/
def State.assign (σ : State) (name : String) (x next : Int) : State :=
  ⟨next, Function.update σ.vars name (some x)⟩

/-- What becomes of a program in a number of statements. -/
inductive Turn where
  /-- It has executed them and is in this state. -/
  | next (σ : State)
  /-- It is over; there is no statement where it has gone. -/
  | finished (σ : State)
  /-- It is in a division that never ends. -/
  | endless

/-- The value of a name where the program is over. -/
def Turn.final? (t : Turn) (name : String) : Option Int :=
  match t with
  | finished σ => σ.vars name
  | next _ | endless => none

/-- Executes a statement. There is no telling what happens if a name has no value or an operand has
no address. -/
def Line.execute? (t : SymbolTable) (l : Line) (σ : State) : Option Turn :=
  match l.clause with
  | .define name token => do
    let pattern ← t.pattern? token
    return .next (σ.assign name (Byte.decode pattern) l.next)
  | .operation (.jump target) => do
    let address ← t.address? target
    return .next { σ with pc := address }
  | .operation (.jumpVia a) => do
    let _ ← σ.vars a
    return .next { σ with pc := tempA }
  | .operation (.move a b) => do
    let x ← σ.vars a
    return .next (σ.assign b (Byte.copied x) l.next)
  | .operation (.arith op a b c) => do
    let x ← σ.vars a
    let y ← σ.vars b
    match op.result? x y with
    | some r => return .next (σ.assign c r l.next)
    | none => return .endless
  | .operation (.branch cond a b target) => do
    let x ← σ.vars a
    let y ← σ.vars b
    let address ← t.address? target
    return .next { σ with pc := if cond.Holds x y then address else l.next }

end Source

namespace Session

open Source

/-- The statements that have code, in their order. -/
def lines (s : Session) : List Line :=
  s.listing.filterMap fun p => p.clause?.map fun clause => ⟨p.start, p.start + p.code.size, clause⟩

/-- Executes the statement where the program is. -/
def turn? (s : Session) (σ : State) : Option Turn :=
  match s.lines.find? (·.start = σ.pc) with
  | some l => l.execute? s.symbols σ
  | none => some (.finished σ)

/-- Executes a number of statements from the start. -/
def turns? (s : Session) : Nat → Option Turn
  | 0 => some (.next .start)
  | n + 1 => do
    match ← s.turns? n with
    | .next σ => s.turn? σ
    | t => some t

theorem turns?_succ {s : Session} {n : Nat} {σ : State} (h : s.turns? n = some (.next σ)) :
    s.turns? (n + 1) = s.turn? σ := by
  simp [turns?, h]

end Session

end Subleq
