import Mathlib
import Subleq.Proofs.Assembly
import Subleq.Proofs.Boundaries
import Subleq.Proofs.Outcomes
import Subleq.Proofs.SignedBytes

/-!
# Subleq.Proofs.Confinement — where control can go from a statement

Control that is at the first cell of a statement stays in the block of the statement until it comes
to the cell after the block, or until a branch of the block to the target of the statement is taken.
Nothing is assumed of the stored data: they decide which way is taken, but not which ways there are.

1. A step from a cell of any block that was assembled goes on in the block or leaves it in one of
   the two ways (`inside_or_leaves_step`), and therefore so does a run (`Runs.inside_or_leaves`).
2. The only fixed address that a block of code branches to is the target of its statement
   (`Code.address?_of_mem`).
3. What a statement compiles to depends on the symbol table only (`Session.emitted_of_realizes`),
   and the place of the code moves its cells (`Code.cells_moved`).
-/

namespace Subleq

open Layout

/-! ## Blocks in a program -/

namespace Machine

variable {ℓ : Type} {b : Block ℓ} {first : Int} {m m' : Machine}

/-- Control is at one of a number of cells. -/
def Inside (first : Int) (count : Nat) (m : Machine) : Prop :=
  first ≤ m.pc ∧ m.pc < first + count

/-- The next step takes a branch that an instruction of the block has to a fixed address. -/
def BranchesOut (b : Block ℓ) (first : Int) (m : Machine) (t : Int) : Prop :=
  ∃ (place : Nat) (a c x y result : Int) (m₁ m₂ : Memory), m.pc = first + place ∧
    b.instructions[place]? = some (.subleq a c (.absolute t)) ∧
    m.Subtracts a c t x y result m₁ m₂ ∧ result ≤ 0

/-- The next step goes on at the cell after the block, or takes a branch to a fixed address. -/
def Leaves (b : Block ℓ) (first : Int) (m : Machine) : Prop :=
  m.step.2.pc = first + b.length ∨ ∃ t, m.BranchesOut b first t

/-- A subtraction after which the machine goes on is executed. -/
theorem subtracts_of_running {a c t : Int} (hpc : m.pc < maxPc)
    (hcell : m.fetch m.pc = .subleq a c t) (hne : Cell.subleq a c t ≠ .empty)
    (hstep : m.step = (.running, m')) :
    ∃ x y m₁ m₂, m.Subtracts a c t x y (Byte.fold (y - x)) m₁ m₂ := by
  rcases subtracts_or_faults hpc hcell hne with hsub | ⟨cause, hfault, -⟩
  · exact hsub
  · rw [hstep] at hfault
    cases hfault

variable [DecidableEq ℓ] {cs : List Cell}

/-- A step from a cell of a block goes on in the block or leaves it. -/
theorem inside_or_leaves_step (hcells : b.assemble first = .ok cs)
    (hheld : m.program.Holds first cs) (hroom : first + b.length ≤ maxPc)
    (hin : m.Inside first b.length) (hstep : m.step = (.running, m')) :
    m'.Inside first b.length ∨ m.Leaves b first := by
  rcases hin with ⟨hle, hlt⟩
  have hpc : m.pc < maxPc := by omega
  have hpc' : m'.pc = m.step.2.pc := by rw [hstep]
  rcases Int.le.dest hle with ⟨place, hplace⟩
  have hcount : place < b.instructions.length := by
    rw [Block.length_instructions]
    omega
  have hi := List.getElem?_eq_getElem hcount
  generalize b.instructions[place] = i at hi
  rcases Block.becomes_of_assemble hcells hi with ⟨c, hc, hbecomes⟩
  have hfetch : m.fetch m.pc = c := by
    rw [← hplace]
    exact hheld place c hc
  -- unless a branch out of the block is taken, the address alone settles which it is
  have hwithin : first ≤ m'.pc → m'.pc ≤ first + b.length →
      m'.Inside first b.length ∨ m.Leaves b first := by
    intro hle hle'
    rcases Int.lt_or_eq_of_le hle' with hlt | heq
    · exact Or.inl ⟨hle, hlt⟩
    · exact Or.inr (Or.inl (hpc'.symm.trans heq))
  by_cases hempty : c = .empty
  · rw [hempty] at hfetch
    rw [step_of_empty hpc hfetch, settle_pc] at hpc'
    have hnext : m'.pc = m.pc + 1 := hpc'
    exact hwithin (by omega) (by omega)
  cases hbecomes with
  | load =>
    rw [(step_load hpc hfetch).2.1] at hpc'
    exact hwithin (by omega) (by omega)
  | inner free hfirst hlast =>
    rcases subtracts_of_running hpc hfetch hempty hstep with ⟨x, y, m₁, m₂, hsub⟩
    rw [hsub.branch] at hpc'
    split at hpc' <;> exact hwithin (by omega) (by omega)
  | @outer a d t =>
    rcases subtracts_of_running hpc hfetch hempty hstep with ⟨x, y, m₁, m₂, hsub⟩
    by_cases hresult : Byte.fold (y - x) ≤ 0
    · exact Or.inr (Or.inr ⟨t, place, a, d, x, y, _, m₁, m₂, hplace.symm, hi, hsub, hresult⟩)
    · rw [hsub.branch, if_neg hresult] at hpc'
      exact hwithin (by omega) (by omega)

/-- A run that begins in a block is inside, unless it has left the block before. -/
theorem Runs.inside_or_leaves {n : Nat} (hruns : Runs n m m') (hcells : b.assemble first = .ok cs)
    (hheld : m.program.Holds first cs) (hroom : first + b.length ≤ maxPc)
    (hin : m.Inside first b.length) : m'.Inside first b.length ∨
      ∃ k < n, ∃ m₀, Runs k m m₀ ∧ m₀.Inside first b.length ∧ m₀.Leaves b first := by
  induction hruns with
  | refl m => exact Or.inl hin
  | @step n m m₁ m₂ hstep hrest ih =>
    rcases inside_or_leaves_step hcells hheld hroom hin hstep with hin₁ | hleaves
    · have hprogram : m₁.program = m.program := by
        have := m.program_step
        rwa [hstep] at this
      rcases ih (hprogram ▸ hheld) hin₁ with hin' | ⟨k, hk, m₀, hruns, hin₀, hleaves⟩
      · exact Or.inl hin'
      · exact Or.inr ⟨k + 1, by omega, m₀, .step hstep hruns, hin₀, hleaves⟩
    · exact Or.inr ⟨0, by omega, m, .refl m, hin, hleaves⟩

end Machine

/-! ## The blocks of statements -/

namespace Code

/-- A block of code branches to no other fixed address than its target. -/
theorem address?_of_mem (c : Code) :
    ∀ i ∈ c.block.instructions, ∀ t, i.address? = some t → c.target? = some t := by
  match c with
  | .preamble | .define .. | .operation (.jump _) | .operation (.jumpVia _)
  | .operation (.move ..) | .operation (.arith .add ..) | .operation (.arith .sub ..)
  | .operation (.arith .mul ..) | .operation (.arith .div ..)
  | .operation (.branch .greater ..) | .operation (.branch .atMost ..) =>
    simp [block, Block.instructions_ofActions, Block.added_cons, Block.Action.instruction?,
      Expansion.preamble, Expansion.operation, Expansion.jumpVia, Expansion.move, Expansion.add,
      Expansion.sub, Expansion.mul, Expansion.div, Expansion.branch, Expansion.compare,
      Expansion.take, Expansion.takeOr, Instruction.address?, target?, Operation.target?]

/-- The place of a piece of code moves all of its cells but those that go on at the target. -/
theorem cells_moved (c : Code) (first d : Int) : c.cells (first + d) =
    List.zipWith (Instruction.shift d) c.block.instructions (c.cells first) := by
  have hmoved : c.block.assemble (first + d) = _ := c.block.assemble_add
  rw [assemble_block, assemble_block] at hmoved
  exact Except.ok.inj hmoved

end Code

/-- The clause is one that branches, and this is the address that it branches to. -/
def Clause.BranchesTo (t : SymbolTable) (target : Int) : Clause → Prop
  | .operation (.jump w) | .operation (.branch _ _ _ w) => t.Resolves w target
  | .operation (.jumpVia _) => target = tempA
  | _ => False

theorem Code.Realizes.branchesTo {t : SymbolTable} {clause : Clause} {code : Code}
    (h : code.Realizes t clause) {target : Int} (htarget : code.target? = some target) :
    clause.BranchesTo t target := by
  cases h with
  | define => cases htarget
  | operation hop =>
    cases hop with
    | jump ht | branch _ _ ht =>
      cases htarget
      exact ht
    | jumpVia =>
      cases htarget
      rfl
    | move | arith => cases htarget

/-! ## A line by itself -/

/-- A name that is known can be defined, and keeps its cell. -/
theorem SymbolTable.define_of_lookup? {t : SymbolTable} {name : String} {a : Int}
    (hname : nameError? name = none) (ha : t.lookup? name = some a) (pattern line : Int) :
    ∃ v symbols, t.define name pattern line = .ok (v, symbols) ∧ v.address = a := by
  have hport : name ≠ ioPortName := by
    rintro rfl
    simp [nameError?] at hname
  rw [lookup?, if_neg hport] at ha
  rcases Option.map_eq_some_iff.mp ha with ⟨old, hold, rfl⟩
  have hdefine : ∃ symbols, t.define name pattern line =
      .ok ({ old with value := pattern, line }, symbols) := by
    simp only [define, hname, hold]
    exact ⟨_, rfl⟩
  rcases hdefine with ⟨symbols, hdefine⟩
  exact ⟨_, symbols, hdefine, rfl⟩

open LineWork SymbolTable in
/-- An operation whose operands have addresses is resolved. -/
theorem Operation.mapM_of_rel {t : SymbolTable} {op : Operation String} {op' : Operation Int}
    (h : op.Rel t.Resolves op') (ws : List Issue) :
    ((op.mapM t.address).run ws).1 = .ok op' := by
  have hrun : ∀ {token a}, t.Resolves token a → ∀ ws, (t.address token).run ws =
      (.ok a, ws ++ (t.address token).outcome.2) := by
    intro token a ha ws
    rw [address_run, ha]
  cases h with
  | jump ht => simp only [mapM, run_bind, hrun ht, run_pure]
  | jumpVia ha => simp only [mapM, run_bind, hrun ha, run_pure]
  | move ha hb => simp only [mapM, run_bind, hrun ha, hrun hb, run_pure]
  | arith ha hb hc => simp only [mapM, run_bind, hrun ha, hrun hb, hrun hc, run_pure]
  | branch ha hb ht => simp only [mapM, run_bind, hrun ha, hrun hb, hrun ht, run_pure]

namespace Session

variable {s : Session} {p : Placement} {clause : Clause}

open LineWork SymbolTable

theorem requireSpace_run {cells : Nat} (hroom : s.pc + cells ≤ programLimit) (ws : List Issue) :
    (s.requireSpace cells).run ws = (.ok (), ws) := by
  unfold requireSpace lackOfSpace?
  rw [if_neg (Int.not_lt.mpr hroom)]
  rfl

theorem defining_run {name : String} {a : Int} (hname : nameError? name = none)
    (ha : s.symbols.lookup? name = some a) (hroom : s.pc + 1 ≤ programLimit) (line pattern : Int)
    (ws : List Issue) : ∃ symbols, (s.defining name line pattern).run ws =
      (.ok (.define (Byte.decode pattern) a, symbols), ws) := by
  rcases define_of_lookup? hname ha pattern line with ⟨v, symbols, hdefine, rfl⟩
  have hspace := s.requireSpace_run hroom ws
  refine ⟨symbols, ?_⟩
  simp only [defining, hname, hdefine]
  rw [run_bind, hspace]
  rfl

/-- The code of a clause is found wherever there is room for it, if the operands stand for what they
did. -/
theorem codeFor_of_realizes (s : Session) {st : Statement} {code : Code}
    (hreal : code.Realizes s.symbols st.clause) (hroom : s.pc + code.size ≤ programLimit) :
    ∃ symbols, (s.codeFor st).outcome.1 = .ok (code, symbols) := by
  unfold outcome
  cases hclause : st.clause with
  | define name token =>
    rw [hclause] at hreal
    cases hreal with
    | @define _ _ pattern a hname ha hvalue =>
      -- a definition that comes late is warned of, and compiled all the same
      have hrest : ∀ ws, ∃ symbols, ((do
          let value ← s.symbols.value token
          s.defining name st.line value : LineWork (Code × SymbolTable)).run ws).1 =
            .ok (.define (Byte.decode pattern) a, symbols) := by
        intro ws
        rcases defining_run hname ha hroom st.line pattern
          (ws ++ (s.symbols.value token).outcome.2) with ⟨symbols, hdefining⟩
        refine ⟨symbols, ?_⟩
        rw [run_bind, value_run, hvalue]
        simp only [hdefining]
      rw [codeFor_define hclause]
      split
      · exact hrest _
      · exact hrest []
  | operation op =>
    rw [hclause] at hreal
    cases hreal with
    | @operation _ op' hop =>
      have hmapM := Operation.mapM_of_rel hop []
      rw [codeFor_operation hclause, run_bind]
      cases hrun : (op.mapM s.symbols.address).run [] with
      | mk r ws =>
        rw [hrun] at hmapM
        subst hmapM
        simp only [run_bind, requireSpace_run hroom, run_pure]
        exact ⟨_, rfl⟩

/-- The line of a placement says the same whatever its number is. -/
theorem parse_source (hclause : p.clause? = some clause) (line : Int) :
    ∃ st, Statement.parse p.source line = .ok (some st) ∧ st.clause = clause := by
  unfold Placement.clause? at hclause
  rw [Statement.parse_eq] at hclause ⊢
  cases hsaid : Clause.ofLine ((Text.words p.source.toList).map String.ofList) with
  | error cause => simp [hsaid, Except.map] at hclause
  | ok said =>
    cases said with
    | none => simp [hsaid, Except.map] at hclause
    | some clause' =>
      simp only [hsaid, Except.map, Option.map_some, Option.some.injEq] at hclause
      exact ⟨_, rfl, hclause⟩

theorem compileStatement_of_codeFor {st : Statement} {code : Code} {symbols : SymbolTable}
    (h : (s.codeFor st).outcome.1 = .ok (code, symbols)) :
    (s.compileStatement st).2 = .emitted code := by
  unfold compileStatement
  cases houtcome : (s.codeFor st).outcome with
  | mk r warnings =>
    rw [houtcome] at h
    subst h
    rfl

/-- A line gives the same code wherever there is room for it. -/
theorem emitted_of_realizes (hclause : p.clause? = some clause)
    (hreal : p.code.Realizes s.symbols clause) (hroom : s.pc + p.code.size ≤ programLimit)
    (line : Int) : (s.compileLine p.source line).2 = .emitted p.code := by
  rcases parse_source hclause line with ⟨st, hparse, rfl⟩
  -- closing the definitions changes neither the table nor the room
  have hemitted : ∀ closed, (({ s with definitionsClosed := closed } :
      Session).compileStatement st).2 = .emitted p.code := by
    intro closed
    rcases codeFor_of_realizes { s with definitionsClosed := closed } hreal hroom with
      ⟨symbols, hcode⟩
    exact compileStatement_of_codeFor hcode
  unfold compileLine
  rw [hparse]
  exact hemitted _

/-! ## Confinement -/

/-- What is known of the control flow of a statement whose code is placed. -/
structure Confined (s : Session) (p : Placement) (clause : Clause) : Prop where
  held : s.program.Holds p.start (p.code.cells p.start)
  /-- Each cell goes on at a cell of the block, or at the cell after it, or it branches to the
  target of the statement. -/
  successors : ∀ x, p.start ≤ x → x < p.start + p.code.size →
    (p.start ≤ (s.program.fetch x).next ∧ (s.program.fetch x).next ≤ p.start + p.code.size) ∨
      clause.BranchesTo s.symbols (s.program.fetch x).next
  /-- Whatever is stored and whatever the input replies with: a run that begins at the first cell is
  in the block, unless it has come to the cell after it before or has taken a branch to the target
  of the statement. -/
  runs : ∀ (m m' : Machine) (n : Nat), m.program = s.program → m.pc = p.start →
    Machine.Runs n m m' → m'.Inside p.start p.code.size ∨
      ∃ k < n, ∃ m₀, Machine.Runs k m m₀ ∧ m₀.Inside p.start p.code.size ∧
        (m₀.step.2.pc = p.start + p.code.size ∨
          ∃ t, clause.BranchesTo s.symbols t ∧ m₀.BranchesOut p.code.block p.start t)
  /-- The line gives the same code at any place. -/
  elsewhere : ∀ (s₀ : Session) (line : Int), s₀.symbols = s.symbols →
    s₀.pc + p.code.size ≤ programLimit → (s₀.compileLine p.source line).2 = .emitted p.code
  /-- The cells are those that the code has at address 0, moved to its place but for the branches to
  the target. -/
  moved : p.code.cells p.start =
    List.zipWith (Instruction.shift p.start) p.code.block.instructions (p.code.cells 0)
  /-- There are no other fixed addresses in the block. -/
  fixed : ∀ i ∈ p.code.block.instructions, ∀ t, i.address? = some t →
    clause.BranchesTo s.symbols t

/-- Each cell of a placement is one that an instruction of its block becomes there. -/
theorem Sound.becomes (h : s.Sound) (hp : p ∈ s.listing) {x : Int} (hle : p.start ≤ x)
    (hlt : x < p.start + p.code.size) : ∃ i ∈ p.code.block.instructions,
      i.Becomes p.start (p.start + p.code.size) x (s.program.fetch x) := by
  rcases Int.le.dest hle with ⟨place, rfl⟩
  have hplace : place < p.code.block.instructions.length := by
    rw [Block.length_instructions]
    exact (by omega : place < p.code.size)
  rcases Block.becomes_of_assemble (p.code.assemble_block p.start)
    (List.getElem?_eq_getElem hplace) with ⟨c, hc, hbecomes⟩
  rw [h.holds hp place c hc]
  exact ⟨_, List.getElem_mem hplace, hbecomes⟩

/-- A run from the first cell of a placement is in its block, unless it has left it before. -/
theorem Sound.inside_or_leaves (h : s.Sound) (hp : p ∈ s.listing) {m m' : Machine} {n : Nat}
    (hprogram : m.program = s.program) (hpc : m.pc = p.start) (hruns : Machine.Runs n m m') :
    m'.Inside p.start p.code.size ∨ ∃ k < n, ∃ m₀, Machine.Runs k m m₀ ∧
      m₀.Inside p.start p.code.size ∧ m₀.Leaves p.code.block p.start := by
  have hheld : m.program.Holds p.start (p.code.cells p.start) := hprogram ▸ h.holds hp
  have hroom : p.start + p.code.size ≤ Machine.maxPc := by
    have hend := (h.tiles.mem hp).2.trans h.room
    simp only [programLimit, Machine.maxPc] at hend ⊢
    omega
  have hin : m.Inside p.start p.code.size := by
    have hpos := p.code.size_pos
    unfold Machine.Inside
    omega
  exact hruns.inside_or_leaves (p.code.assemble_block p.start) hheld hroom hin

theorem Sound.confined (h : s.Sound) (hp : p ∈ s.listing) (hclause : p.clause? = some clause)
    (hreal : p.code.Realizes s.symbols clause) : s.Confined p clause := by
  have hfixed : ∀ i ∈ p.code.block.instructions, ∀ t, i.address? = some t →
      clause.BranchesTo s.symbols t :=
    fun i hi t ht => hreal.branchesTo (p.code.address?_of_mem i hi t ht)
  constructor
  case held => exact h.holds hp
  case fixed => exact hfixed
  case moved =>
    have hmoved := p.code.cells_moved 0 p.start
    rwa [Int.zero_add] at hmoved
  case elsewhere =>
    intro s₀ line hsymbols hroom
    exact emitted_of_realizes hclause (hsymbols ▸ hreal) hroom line
  case successors =>
    intro x hle hlt
    rcases h.becomes hp hle hlt with ⟨i, hi, hbecomes⟩
    generalize s.program.fetch x = c at hbecomes ⊢
    cases hbecomes with
    | load => exact Or.inl (by simp only [Cell.next]; omega)
    | inner free hfirst hlast => exact Or.inl ⟨hfirst, hlast⟩
    | outer => exact Or.inr (hfixed _ hi _ rfl)
  case runs =>
    intro m m' n hprogram hpc hruns
    rcases h.inside_or_leaves hp hprogram hpc hruns with
      hin | ⟨k, hk, m₀, hruns₀, hin₀, hend | ⟨t, hbranches⟩⟩
    · exact Or.inl hin
    · exact Or.inr ⟨k, hk, m₀, hruns₀, hin₀, Or.inl hend⟩
    · -- the branch that is taken is one of the block, and so it leads to the target
      have hbranches' := hbranches
      rcases hbranches' with ⟨place, a, c, x, y, result, m₁, m₂, -, hi, -, -⟩
      have htarget := hfixed _ (List.mem_of_getElem? hi) t rfl
      exact Or.inr ⟨k, hk, m₀, hruns₀, hin₀, Or.inr ⟨t, htarget, hbranches⟩⟩

/-- Whatever the source, and however far compiling has come, the control flow of each statement that
was compiled is confined. -/
theorem confined_compile (source : String) :
    ∃ ps, (compile {} source).1.listing = preamble :: ps ∧
      ∀ p ∈ ps, ∃ clause, p.clause? = some clause ∧
        p.code.Realizes (compile {} source).1.symbols clause ∧
        (compile {} source).1.Confined p clause := by
  have hs := sound_compile source
  generalize (compile {} source).1 = s at hs
  rcases hs.realized with ⟨ps, hlisting, hps⟩
  refine ⟨ps, hlisting, fun p hp => ?_⟩
  have hmem : p ∈ s.listing := by
    rw [hlisting]
    exact List.mem_cons_of_mem _ hp
  rcases hps p hp with ⟨clause, hclause, hreal⟩
  exact ⟨clause, hclause, hreal, hs.confined hmem hclause hreal⟩

/-- The variables are named like labels of the block, and the branch leads into the block itself. -/
def branching : String := "DEF loop 3\nDEF done 2\nIFGT loop done 9"

theorem confined_compile_branching : ∃ p ∈ (compile {} branching).1.listing,
    p.start = 7 ∧ p.code = .operation (.branch .greater 249 248 9) ∧
      (compile {} branching).1.Confined p (.operation (.branch .greater "loop" "done" "9")) := by
  have hlast : (compile {} branching).1.listing[3]? =
      some ⟨7, .operation (.branch .greater 249 248 9), "IFGT loop done 9"⟩ := by decide +kernel
  have hclause : (⟨7, .operation (.branch .greater 249 248 9), "IFGT loop done 9"⟩ :
      Placement).clause? = some (.operation (.branch .greater "loop" "done" "9")) := by
    decide +kernel
  rcases confined_compile branching with ⟨ps, hlisting, hps⟩
  refine ⟨_, List.mem_of_getElem? hlast, rfl, rfl, ?_⟩
  rw [hlisting, List.getElem?_cons_succ] at hlast
  rcases hps _ (List.mem_of_getElem? hlast) with ⟨clause, hclause', -, hconfined⟩
  rw [hclause] at hclause'
  cases hclause'
  exact hconfined

end Session

end Subleq
