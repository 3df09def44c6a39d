import Mathlib
import Subleq.Proofs.Boundaries

/-!
# Subleq.Proofs.Simulation — compiled programs do what their source says

The machine is compared with the interpreter of source programs. Between statements the cell of each
variable holds what the interpreter has under its name (`Session.Agrees`). One statement takes both
to such a state again (`Regular.turn`), and it is the only statement that begins on the way
(`arrivals_walk`), so that the machine arrives at its statements one by one as the interpreter does.

The theorem is about programs that work on variables only, that branch to statements or out of the
code, and that move no cell to itself.
-/

namespace Subleq

open Layout Source

/-- The clause moves a cell to another one, if it moves one. -/
def Clause.MovesElsewhere : Clause → Prop
  | .operation (.move a b) => a ≠ b
  | _ => True

instance (c : Clause) : Decidable c.MovesElsewhere :=
  match c with
  | .operation (.move a b) => inferInstanceAs (Decidable (a ≠ b))
  | .define .. | .operation (.jump _) | .operation (.jumpVia _) | .operation (.arith ..)
  | .operation (.branch ..) => isTrue trivial

namespace Session

variable {s : Session} {p : Placement} {pc' x r : Int} {σ σ' : Store} {τ : State}
  {vars : String → Option Int} {v : Variable} {w : String}

/-- No cell is moved to itself. -/
def MovesElsewhere (s : Session) : Prop := ∀ l ∈ s.lines, l.clause.MovesElsewhere

instance (s : Session) : Decidable s.MovesElsewhere :=
  inferInstanceAs (Decidable (∀ l ∈ s.lines, l.clause.MovesElsewhere))

/-- Branches lead to statements of the source or out of the code. -/
def BranchesToStatements (s : Session) : Prop :=
  ∀ p ∈ s.listing, ∀ target ∈ p.code.target?, (∃ l ∈ s.lines, l.start = target) ∨ s.pc ≤ target

instance (s : Session) : Decidable s.BranchesToStatements :=
  inferInstanceAs (Decidable (∀ p ∈ s.listing, ∀ target ∈ p.code.target?,
    (∃ l ∈ s.lines, l.start = target) ∨ s.pc ≤ target))

/-! ## Lines -/

theorem clause?_preamble : preamble.clause? = none := by cbv

theorem mem_lines {l : Line} : l ∈ s.lines ↔
    ∃ p ∈ s.listing, ∃ clause, p.clause? = some clause ∧
      l = ⟨p.start, p.start + p.code.size, clause⟩ := by
  simp only [lines, List.mem_filterMap, Option.map_eq_some_iff, eq_comm (a := l)]

theorem BranchesToStatements.branchesToBeginnings (h : s.BranchesToStatements) :
    s.BranchesToBeginnings := by
  intro p hp target htarget
  rcases h p hp target htarget with ⟨l, hl, rfl⟩ | hend
  · rcases mem_lines.mp hl with ⟨q, hq, clause, _, rfl⟩
    exact Or.inl ⟨q, hq, rfl⟩
  · exact Or.inr hend

/-- The statement at the beginning of a placement is the one on its line. -/
theorem Sound.find?_lines (hs : s.Sound) (hp : p ∈ s.listing) {clause : Clause}
    (hclause : p.clause? = some clause) :
    s.lines.find? (·.start = p.start) = some ⟨p.start, p.start + p.code.size, clause⟩ := by
  cases hfind : s.lines.find? (·.start = p.start) with
  | none =>
    have hnone := List.find?_eq_none.mp hfind _ (mem_lines.mpr ⟨p, hp, clause, hclause, rfl⟩)
    simp at hnone
  | some l =>
    rcases mem_lines.mp (List.mem_of_find?_eq_some hfind) with ⟨q, hq, clause', hclause', rfl⟩
    have hstart : q.start = p.start := by simpa using List.find?_some hfind
    obtain rfl := hs.tiles.eq_of_start hq hp hstart
    rw [Option.some.inj (hclause.symm.trans hclause')]

theorem Sound.eq_preamble (hs : s.Sound) (hp : p ∈ s.listing) (hcode : p.code = .preamble) :
    p = preamble := by
  rcases hs.eq_or_realizes hp with hsame | ⟨clause, _, hreal⟩
  · exact hsame
  · rw [hcode] at hreal
    cases hreal

/-- Statements of the source are all that is placed but the preamble. -/
theorem Sound.starts_iff (hs : s.Sound) (hp : p ∈ s.listing) :
    (∃ l ∈ s.lines, l.start = p.start) ↔ p.code ≠ .preamble := by
  constructor
  · rintro ⟨l, hl, hstart⟩ hcode
    rcases mem_lines.mp hl with ⟨q, hq, clause, hclause, rfl⟩
    obtain rfl := hs.tiles.eq_of_start hq hp hstart
    rw [hs.eq_preamble hq hcode, clause?_preamble] at hclause
    cases hclause
  · intro hne
    rcases hs.eq_or_realizes hp with rfl | ⟨clause, hclause, _⟩
    · exact absurd rfl hne
    · exact ⟨_, mem_lines.mpr ⟨p, hp, clause, hclause, rfl⟩, rfl⟩

/-! ## Values of names -/

/-- The cells of the variables hold the values of their names. -/
def Agrees (s : Session) (σ : Store) (vars : String → Option Int) : Prop :=
  ∀ v ∈ s.symbols.variables, σ v.address = vars v.name

theorem Agrees.kept (h : s.Agrees σ vars) (hs : s.Sound) {code : Code} {first : Int}
    (hdoes : code.Does first σ pc' σ') (hstored : code.stored? σ = none) : s.Agrees σ' vars := by
  intro v hv
  rw [hdoes.apply (hs.standard.variable_mem hv).2, hstored]
  exact h v hv

theorem Agrees.stored (h : s.Agrees σ vars) (hs : s.Sound) {code : Code} {first : Int}
    (hdoes : code.Does first σ pc' σ') (hv : v ∈ s.symbols.variables)
    (hstored : code.stored? σ = some (v.address, r)) :
    s.Agrees σ' (Function.update vars v.name (some r)) := by
  intro u hu
  rw [hdoes.apply (hs.standard.variable_mem hu).2, hstored]
  by_cases hname : u.name = v.name
  · obtain rfl := hs.standard.eq_of_name hu hv hname
    simp
  · have haddress : u.address ≠ v.address :=
      fun heq => hname (congrArg Variable.name (hs.standard.eq_of_address hu hv heq))
    simp only [if_neg haddress, Function.update_of_ne hname]
    exact h u hu

/-- An operand that stands for data is the cell of the variable of its name. -/
theorem Stepwise.variable_of_word (hs : s.Stepwise) (hp : p ∈ s.listing) (hw : w ∈ p.dataWords)
    {a : Int} (ha : s.symbols.Resolves w a) :
    ∃ v ∈ s.symbols.variables, v.name = w ∧ v.address = a := by
  rcases Option.isSome_iff_exists.mp (hs.data p hp w hw) with ⟨v, hv⟩
  rcases SymbolTable.find?_mem hv with ⟨hmem, rfl⟩
  exact ⟨v, hmem, rfl, (hs.standard.resolves_name hmem).unique ha⟩

theorem Agrees.word (h : s.Agrees σ vars) (hs : s.Stepwise) (hp : p ∈ s.listing)
    (hw : w ∈ p.dataWords) {a : Int} (ha : s.symbols.Resolves w a) : vars w = σ a := by
  rcases hs.variable_of_word hp hw ha with ⟨v, hv, rfl, rfl⟩
  exact (h v hv).symm

/-! ## One statement -/

theorem turn?_eq (hs : s.Sound) (hp : p ∈ s.listing) {clause : Clause}
    (hclause : p.clause? = some clause) (hpc : τ.pc = p.start) :
    s.turn? τ = Line.execute? s.symbols ⟨p.start, p.start + p.code.size, clause⟩ τ := by
  unfold turn?
  rw [hpc, hs.find?_lines hp hclause]

/-- A definition, carried out by both. -/
theorem Agrees.turn_define (h : s.Agrees σ τ.vars) (hs : s.Sound) (hp : p ∈ s.listing)
    {name token : String} (hclause : p.clause? = some (.define name token))
    (hreal : p.code.Realizes s.symbols (.define name token)) (hpc : τ.pc = p.start)
    (hdoes : p.code.Does p.start σ pc' σ') :
    ∃ τ', s.turn? τ = some (.next τ') ∧ τ'.pc = pc' ∧ s.Agrees σ' τ'.vars := by
  rw [turn?_eq hs hp hclause hpc]
  generalize hcode : p.code = code at *
  cases hreal with
  | @define _ _ pattern a hname ha hvalue =>
    rcases SymbolTable.lookup?_cases ha with ⟨rfl, _⟩ | ⟨v, hv, rfl, rfl⟩
    · simp [nameError?] at hname
    · refine ⟨τ.assign v.name (Byte.decode pattern) (p.start + 1), ?_, ?_, ?_⟩
      · simp [Line.execute?, hvalue.pattern?_eq]
      · cases hdoes
        rfl
      · exact h.stored hs hdoes hv rfl

/-- An operation, carried out by both. -/
theorem Agrees.turn_operation (h : s.Agrees σ τ.vars) (hs : s.Stepwise) (hp : p ∈ s.listing)
    {op : Operation String} (hclause : p.clause? = some (.operation op))
    (hreal : p.code.Realizes s.symbols (.operation op)) (hpc : τ.pc = p.start)
    (hneeds : p.code.Needs σ) (hmoves : (Clause.operation op).MovesElsewhere)
    (hdoes : p.code.Does p.start σ pc' σ') :
    ∃ τ', s.turn? τ = some (.next τ') ∧ τ'.pc = pc' ∧ s.Agrees σ' τ'.vars := by
  have hwords : p.dataWords = op.data := by
    simp [Placement.dataWords, hclause]
  have hword := fun {w a} (hw : w ∈ op.data) (ha : s.symbols.Resolves w a) =>
    h.word hs hp (hwords ▸ hw) ha
  have hvariable := fun {w a} (hw : w ∈ op.data) (ha : s.symbols.Resolves w a) =>
    hs.variable_of_word hp (hwords ▸ hw) ha
  rw [turn?_eq hs.toSound hp hclause hpc]
  generalize hcode : p.code = code at *
  cases hreal with
  | operation hop =>
    cases hop with
    | jump ht =>
      cases hdoes with
      | jump => exact ⟨{ τ with pc := pc' }, by simp [Line.execute?, ht.address?_eq], rfl, h⟩
    | @jumpVia a a' ha =>
      have hkept := h.kept hs.toSound hdoes rfl
      rcases hneeds.2.2 a' (by simp [Operation.data]) with ⟨x, hx⟩
      have hvalue : τ.vars a = some x := (hword (by simp [Operation.data]) ha).trans hx.eq
      cases hdoes with
      | jumpVia hspares =>
        exact ⟨{ τ with pc := tempA }, by simp [Line.execute?, hvalue], rfl, hkept⟩
    | @move a b a' b' ha hb =>
      rcases hvariable (w := a) (by simp [Operation.data]) ha with ⟨u, hu, rfl, rfl⟩
      rcases hvariable (w := b) (by simp [Operation.data]) hb with ⟨v, hv, rfl, rfl⟩
      -- different names have different cells, so the source is not cleared with the destination
      have hne : u.address ≠ v.address :=
        fun heq => hmoves (congrArg Variable.name (hs.standard.eq_of_address hu hv heq))
      have hstored := h.stored (r := Byte.copied ((σ u.address).getD 0)) hs.toSound hdoes hv
      cases hdoes with
      | @move _ _ x _ hx hgives =>
        have hvalue : τ.vars u.name = some x := (hword (by simp [Operation.data]) ha).trans hx
        refine ⟨τ.assign v.name (Byte.copied x) (p.start + 4), ?_, rfl, ?_⟩
        · simp [Line.execute?, hvalue, Code.size_operation]
        · simpa [Code.stored?, hx, hne, State.assign] using hstored
    | @arith op a b c a' b' c' ha hb hc =>
      rcases hvariable (w := c) (by simp [Operation.data]) hc with ⟨v, hv, rfl, rfl⟩
      have hstored := fun r => h.stored (r := r) hs.toSound hdoes hv
      cases hdoes with
      | @arith _ _ _ _ x y r _ hx hy hr hgives =>
        have hvalue : τ.vars a = some x := (hword (by simp [Operation.data]) ha).trans hx
        have hvalue' : τ.vars b = some y := (hword (by simp [Operation.data]) hb).trans hy
        refine ⟨τ.assign v.name r (p.start + (Code.operation (.arith op a' b' v.address)).size),
          ?_, rfl, ?_⟩
        · simp [Line.execute?, hvalue, hvalue', hr]
        · simpa [Code.stored?, hx, hy, hr, State.assign] using hstored r
    | @branch cond a b t a' b' t' ha hb ht =>
      have hkept := h.kept hs.toSound hdoes rfl
      cases hdoes with
      | @branch _ _ _ _ x y _ hx hy hspares =>
        have hvalue : τ.vars a = some x := (hword (by simp [Operation.data]) ha).trans hx
        have hvalue' : τ.vars b = some y := (hword (by simp [Operation.data]) hb).trans hy
        refine ⟨{ τ with pc := if cond.Holds x y then t' else p.start + 14 }, ?_, rfl, hkept⟩
        simp [Line.execute?, hvalue, hvalue', ht.address?_eq, Code.size_operation]

/-- One statement takes machine and interpreter to the same state. -/
theorem Regular.turn (hregular : s.Regular p.start σ) (hs : s.Stepwise) (hmoves : s.MovesElsewhere)
    (hp : p ∈ s.listing) (hne : p.code ≠ .preamble) (hagrees : s.Agrees σ τ.vars)
    (hpc : τ.pc = p.start) (hdoes : p.code.Does p.start σ pc' σ') :
    ∃ τ', s.turn? τ = some (.next τ') ∧ τ'.pc = pc' ∧ s.Agrees σ' τ'.vars := by
  rcases hs.eq_or_realizes hp with rfl | ⟨clause, hclause, hreal⟩
  · exact absurd rfl hne
  cases clause with
  | define name token => exact hagrees.turn_define hs.toSound hp hclause hreal hpc hdoes
  | operation op =>
    have hline := hmoves _ (mem_lines.mpr ⟨p, hp, _, hclause, rfl⟩)
    exact hagrees.turn_operation hs hp hclause hreal hpc (hregular.needs hs hp) hline hdoes

/-- A division that never ends does not end for the interpreter. -/
theorem Agrees.turn_stuck (hagrees : s.Agrees σ τ.vars) (hs : s.Stepwise) (hp : p ∈ s.listing)
    (hpc : τ.pc = p.start) (hstuck : Machine.Stuck s.program p.start σ p.code) :
    s.turn? τ = some .endless := by
  rcases hstuck.division with ⟨op, a, b, c, x, y, hcode, hx, hy, hr⟩
  rcases hs.realizes_operation hp hcode with ⟨op₀, hclause, hrel⟩
  cases hrel with
  | @arith _ a₀ b₀ c₀ _ _ _ ha hb hc =>
    have hwords : p.dataWords = [a₀, b₀, c₀] := by
      simp [Placement.dataWords, hclause, Operation.data]
    have hvalue := (hagrees.word hs hp (hwords ▸ (by simp)) ha).trans hx
    have hvalue' := (hagrees.word hs hp (hwords ▸ (by simp)) hb).trans hy
    rw [turn?_eq hs.toSound hp hclause hpc]
    simp [Line.execute?, hvalue, hvalue', hr]

/-! ## Arrivals -/

open Machine

/-- How often a machine, in a number of steps, comes to the beginning of a statement and leaves it
again. -/
def arrivals (s : Session) (m : Machine) (k : Nat) : Nat :=
  Nat.count (fun j => ∃ l ∈ s.lines, l.start = (m.after j).pc) k

theorem arrivals_add (s : Session) (m : Machine) (j k : Nat) :
    s.arrivals m (j + k) = s.arrivals m j + s.arrivals (m.after j) k := by
  simp only [arrivals, Nat.count_add, after_add]

/-- On the way through its code a statement is the only one that begins. -/
theorem arrivals_walk (hs : s.Sound) (hp : p ∈ s.listing) {k : Nat} (hk : 0 < k) {m m' : Machine}
    (hpc : m.pc = p.start) (hruns : Runs k m m')
    (hinside : ∀ j m₁, 0 < j → j < k → Runs j m m₁ →
      p.start < m₁.pc ∧ m₁.pc < p.start + p.code.size) :
    s.arrivals m k = if p.code = .preamble then 0 else 1 := by
  -- the first step leaves the beginning, and no later one starts from another
  have hsplit : k = 1 + (k - 1) := by omega
  have hrest : s.arrivals (m.after 1) (k - 1) = 0 := by
    rw [arrivals, Nat.count_iff_forall_not]
    rintro i hi ⟨l, hl, hstart⟩
    rcases mem_lines.mp hl with ⟨q, hq, clause, _, rfl⟩
    have hk' : k = (1 + i) + (k - (1 + i)) := by omega
    rw [hk'] at hruns
    rcases hruns.split with ⟨m₁, hfirst, _⟩
    have hin := hinside (1 + i) m₁ (by omega) (by omega) hfirst
    rw [hfirst.eq_after, after_add, ← hstart] at hin
    exact hs.not_begins hp hin.1 hin.2 (Or.inl ⟨q, hq, rfl⟩)
  rw [hsplit, arrivals_add, hrest, arrivals, Nat.count_one, after_zero, hpc]
  simp only [hs.starts_iff hp, ne_eq, ite_not, Nat.add_zero]

/-! ## Any number of statements -/

/-- After a number of statements and of steps interpreter and machine are in the same state. -/
structure Meets (s : Session) (m₀ : Machine) (n : Nat) (τ : State) (k : Nat) (m : Machine)
    (σ : Store) : Prop where
  runs : Runs k m₀ m
  at_pc : m.At s.program τ.pc σ
  regular : s.Regular τ.pc σ
  agrees : s.Agrees σ τ.vars
  arrived : s.arrivals m₀ k = n
  pos : 0 < τ.pc

/-- What becomes of the machine while the interpreter comes to a turn. -/
inductive Follows (s : Session) (m₀ : Machine) (n : Nat) : Turn → Prop where
  | next {τ : State} {k : Nat} {m : Machine} {σ : Store} (hmeets : s.Meets m₀ n τ k m σ) :
      Follows s m₀ n (.next τ)
  | finished {τ : State} {k : Nat} {m₁ m₂ : Machine} {pc : Int} {σ : Store} (hruns : Runs k m₀ m₁)
      (hhalt : m₁.step = (.halted, m₂)) (hm₂ : m₂.At s.program pc σ)
      (hagrees : s.Agrees σ τ.vars) : Follows s m₀ n (.finished τ)
  | endless (hruns : ∀ k, ∃ m, Runs k m₀ m) : Follows s m₀ n .endless

theorem follows_start (hs : s.Stepwise) {m₀ : Machine}
    (hm₀ : m₀.At s.program 0 fun _ => none) : s.Follows m₀ 0 (.next .start) := by
  have hpreamble := hs.preamble_mem
  rcases leads_preamble (σ := fun _ => none) (hs.holds hpreamble) (by decide) with
    ⟨σ, hwalk, hdoes⟩
  rcases hwalk m₀ hm₀ with ⟨m, hruns, hm, hinside⟩
  refine .next ⟨hruns, hm, ?_, ?_, ?_, by decide⟩
  · exact Regular.does (p := preamble) hs.regular_start hs hpreamble hdoes
  · exact Agrees.kept (fun _ _ => rfl) hs.toSound hdoes rfl
  · exact arrivals_walk hs.toSound hpreamble (by decide) hm₀.pc hruns hinside

/-- No statement leads back to the preamble. -/
theorem BranchesToStatements.pos (hbranches : s.BranchesToStatements) (hs : s.Sound)
    (hp : p ∈ s.listing) (hdoes : p.code.Does p.start σ pc' σ') : 0 < pc' := by
  rcases hdoes.goesOn with rfl | htarget
  · have hmem := (hs.tiles.mem hp).1
    have hsize := p.code.size_pos
    omega
  · rcases hbranches p hp pc' htarget with ⟨l, hl, hstart⟩ | hend
    · rcases mem_lines.mp hl with ⟨q, hq, _, _, rfl⟩
      rw [← hstart]
      exact hs.start_pos hq ((hs.starts_iff hq).mp ⟨_, hl, rfl⟩)
    · exact Int.lt_of_lt_of_le hs.pc_pos hend

/-- There is no statement after the code. -/
theorem turn?_of_le (hs : s.Sound) (hend : s.pc ≤ τ.pc) : s.turn? τ = some (.finished τ) := by
  have hnone : s.lines.find? (·.start = τ.pc) = none := by
    rw [List.find?_eq_none]
    intro l hl
    rcases mem_lines.mp hl with ⟨q, hq, _, _, rfl⟩
    have hmem := (hs.tiles.mem hq).2
    have hsize := q.code.size_pos
    simp only [decide_eq_true_eq]
    omega
  rw [turn?, hnone]

/-- One more statement. -/
theorem Meets.turn {m₀ m : Machine} {n k : Nat} (h : s.Meets m₀ n τ k m σ) (hs : s.Stepwise)
    (hmoves : s.MovesElsewhere) (hbranches : s.BranchesToStatements) :
    ∃ t, s.turn? τ = some t ∧ s.Follows m₀ (n + 1) t := by
  rcases h.regular.begins with ⟨p, hp, hstart⟩ | hend
  · have hne : p.code ≠ .preamble := by
      intro hcode
      have hpos := h.pos
      rw [← hstart, hs.eq_preamble hp hcode] at hpos
      exact absurd hpos (by decide)
    have hregular := hstart ▸ h.regular
    rcases hregular.walks hs hp with ⟨j, pc', σ', hj, hwalk, hdoes⟩ | hstuck
    · rcases hregular.turn hs hmoves hp hne h.agrees hstart.symm hdoes with
        ⟨τ', hturn, rfl, hagrees⟩
      rcases hwalk m (hstart ▸ h.at_pc) with ⟨m', hruns, hm', hinside⟩
      refine ⟨.next τ', hturn, .next ⟨h.runs.trans hruns, hm', hregular.does hs hp hdoes, hagrees,
        ?_, hbranches.pos hs.toSound hp hdoes⟩⟩
      rw [arrivals_add, h.arrived, ← h.runs.eq_after,
        arrivals_walk hs.toSound hp hj (h.at_pc.pc.trans hstart.symm) hruns hinside, if_neg hne]
    · -- the code is a division, in which the machine stays for ever
      refine ⟨.endless, h.agrees.turn_stuck hs hp hstart.symm hstuck, .endless fun j => ?_⟩
      rcases hstuck.inside m (hstart ▸ h.at_pc) (j + 1) (by omega) with ⟨m', hruns, _⟩
      have hadd : k + (j + 1) = j + (k + 1) := by omega
      rcases (hadd ▸ h.runs.trans hruns).split with ⟨m₁, hfirst, _⟩
      exact ⟨m₁, hfirst⟩
  · -- there is no statement, and the machine passes by empty cells up to the end of the store
    rcases h.at_pc.halts fun x hx => hs.fetch_of_le (Int.le_trans hend hx) with
      ⟨j, m₁, m₂, pc, hruns, hhalt, hm₂⟩
    exact ⟨.finished τ, turn?_of_le hs.toSound hend,
      .finished (h.runs.trans hruns) hhalt hm₂ h.agrees⟩

/-- Any number of statements. -/
theorem follows (hs : s.Stepwise) (hmoves : s.MovesElsewhere) (hbranches : s.BranchesToStatements)
    {m₀ : Machine} (hm₀ : m₀.At s.program 0 fun _ => none) (n : Nat) :
    ∃ t, s.turns? n = some t ∧ s.Follows m₀ n t := by
  induction n with
  | zero => exact ⟨_, rfl, follows_start hs hm₀⟩
  | succ n ih =>
    rcases ih with ⟨t, hturns, hfollows⟩
    cases hfollows with
    | next hmeets =>
      rw [turns?_succ hturns]
      exact hmeets.turn hs hmoves hbranches
    | finished hruns hhalt hm₂ hagrees =>
      exact ⟨_, by simp [turns?, hturns], .finished hruns hhalt hm₂ hagrees⟩
    | endless hruns => exact ⟨_, by simp [turns?, hturns], .endless hruns⟩

end Session

namespace Machine

/-- A machine that makes any number of steps reaches every limit. -/
theorem run_of_endless {m : Machine} (h : ∀ k, ∃ m', Runs k m.reset m') (limit : Int) :
    ∃ m', m.run limit = (.ok .stepLimit, m') := by
  have hnever : ∀ {k m₁}, Runs k m.reset m₁ → m₁.step.1 = .running := by
    intro k m₁ hruns
    by_contra hstop
    rcases h (k + 1) with ⟨m', hlonger⟩
    have hle := hruns.le_of_stops hstop hlonger
    omega
  rcases run_cases m limit with ⟨k, m₁, m₂, hruns, hhalt, _⟩ | ⟨k, m₁, m₂, cause, hruns, hfault, _⟩ |
    ⟨k, m₁, hruns, _, heq⟩
  · have hrunning := hnever hruns
    rw [hhalt] at hrunning
    cases hrunning
  · have hrunning := hnever hruns
    rw [hfault] at hrunning
    cases hrunning
  · exact ⟨m₁, heq⟩

open Session in
/-- The machine does what the source program does. When the interpreter has executed `n` statements,
the machine, after some steps without a stop and without a fault, arrives at its next statement
having left `n` of them behind; it is at the same statement, and the variables have the same values.
When the interpreter is finished, every run that is long enough halts, with the same values in the
end; and when it is caught in a division, every run reaches its limit. -/
theorem run_follows_source {source : String} {s : Session}
    (hcompile : Session.compile {} source = (s, none)) (honTime : s.NoLateDefinition)
    (hdata : s.VariableData) (hmoves : s.MovesElsewhere) (hbranches : s.BranchesToStatements)
    (input : Input) (output : String) (n : Nat) :
    match s.turns? n with
    | some (.next τ) => ∃ k m, Runs k (ofProgram s.program input output).reset m ∧ m.pc = τ.pc ∧
        s.arrivals (ofProgram s.program input output).reset k = n ∧
        ∀ v ∈ s.symbols.variables, m.memory.get? v.address = τ.vars v.name
    | some (.finished τ) => ∃ (k : Nat) (m : Machine), (∀ limit : Int, k < limit →
          (ofProgram s.program input output).run limit = (.ok .halt, m)) ∧
        ∀ v ∈ s.symbols.variables, m.memory.get? v.address = τ.vars v.name
    | some .endless => ∀ limit : Int,
        ∃ m, (ofProgram s.program input output).run limit = (.ok .stepLimit, m)
    | none => False := by
  have hs : s.Stepwise :=
    ⟨Session.sound_of_compile hcompile, honTime, hdata, hbranches.branchesToBeginnings⟩
  have hvalues : ∀ {m : Machine} {pc σ vars}, m.At s.program pc σ → s.Agrees σ vars →
      ∀ v ∈ s.symbols.variables, m.memory.get? v.address = vars v.name := by
    intro m pc σ vars hm hagrees v hv
    have hmem := hs.standard.variable_mem hv
    simp only [Layout.zero] at hmem
    rw [Memory.get?, Memory.cellOf_eq (by omega) (by omega), hm.cells]
    exact hagrees v hv
  rcases follows hs hmoves hbranches (at_reset s.program input output) n with ⟨t, hturns, hfollows⟩
  rw [hturns]
  cases hfollows with
  | next hmeets =>
    exact ⟨_, _, hmeets.runs, hmeets.at_pc.pc, hmeets.arrived, hvalues hmeets.at_pc hmeets.agrees⟩
  | finished hruns hhalt hm₂ hagrees =>
    exact ⟨_, _, fun limit hlimit => run_of_halts hruns hhalt hlimit, hvalues hm₂ hagrees⟩
  | endless hruns => exact run_of_endless hruns

/-- A program that adds up the numbers from `n` down to one. -/
def triangle : String :=
  "DEF n 5\nDEF one 1\nDEF sum 0\nDEF none 0\n" ++
    "IFLE n none 255\nADD sum n sum\nSUB one n n\nJMP 9"

theorem run_follows_source_triangle :
    (Session.compile {} triangle).2 = none ∧ (Session.compile {} triangle).1.NoLateDefinition ∧
      (Session.compile {} triangle).1.VariableData ∧
      (Session.compile {} triangle).1.MovesElsewhere ∧
      (Session.compile {} triangle).1.BranchesToStatements ∧
      ∃ (k : Nat) (m : Machine), (∀ limit : Int, k < limit →
        (ofProgram (Session.compile {} triangle).1.program (Input.ofScript []) "out").run limit =
          (.ok .halt, m)) ∧ m.memory.get? 247 = some 15 := by
  have hraised : (Session.compile {} triangle).2 = none := by decide +kernel
  have honTime : (Session.compile {} triangle).1.NoLateDefinition := by decide +kernel
  have hdata : (Session.compile {} triangle).1.VariableData := by decide +kernel
  have hmoves : (Session.compile {} triangle).1.MovesElsewhere := by decide +kernel
  have hbranches : (Session.compile {} triangle).1.BranchesToStatements := by decide +kernel
  have hsum : ((Session.compile {} triangle).1.turns? 26).bind (·.final? "sum") = some 15 := by
    decide +kernel
  have hvariable : (⟨"sum", 247, 0, 3⟩ : Variable) ∈
      (Session.compile {} triangle).1.symbols.variables := by decide +kernel
  refine ⟨hraised, honTime, hdata, hmoves, hbranches, ?_⟩
  have hcompile := Session.compile_eq hraised
  generalize (Session.compile {} triangle).1 = s at *
  have hfollows := run_follows_source hcompile honTime hdata hmoves hbranches (Input.ofScript [])
    "out" 26
  rcases Option.bind_eq_some_iff.mp hsum with ⟨turn, hturn, hfinal⟩
  rw [hturn] at hfollows
  cases turn with
  | finished τ =>
    rcases hfollows with ⟨k, m, hrun, hvalues⟩
    exact ⟨k, m, hrun, (hvalues _ hvariable).trans hfinal⟩
  | next τ => cases hfinal
  | endless => cases hfinal

end Machine

end Subleq
