import Mathlib
import Subleq.Proofs.Cells
import Subleq.Proofs.Symbols
import Subleq.Session

/-!
# Subleq.Proofs.Placement — where the code of a program lies

Compiling a line either reports something or places one piece of code (`compileLine_cases`). What
this comes to in the end is `Session.Sound`, which is kept by every line:

1. the placements of the listing lie one after the other (`Tiles`), and the program store holds
   their cells and nothing else;
2. the code of each placement but the first is that of the clause on its source line, with the
   operands resolved in the symbol table (`Code.Realizes`);
3. the variables are those that have a definition among the placements;
4. unless a late definition was reported, all definitions come before all operations.
-/

namespace Subleq

open Layout

/-! ## Source lines -/

namespace Text

/-- Only blanks stand after the last character that is not blank. -/
theorem append_trimEnd (cs : List Char) :
    ∃ bs, cs = trimEnd cs ++ bs ∧ ∀ b ∈ bs, isBlank b = true := by
  induction cs with
  | nil => exact ⟨[], rfl, by simp⟩
  | cons c cs ih =>
    obtain ⟨bs, hcs, hbs⟩ := ih
    cases htrim : trimEnd cs with
    | nil =>
      rw [htrim, List.nil_append] at hcs
      rw [trimEnd, htrim]
      by_cases hc : isBlank c = true
      · exact ⟨c :: bs, by simp [hc, hcs], by simpa [hc] using hbs⟩
      · exact ⟨bs, by simp [hc, hcs], hbs⟩
    | cons d ds =>
      rw [htrim] at hcs
      refine ⟨bs, ?_, hbs⟩
      rw [trimEnd, htrim]
      simp [hcs]

theorem words_of_blank {bs : List Char} (h : ∀ b ∈ bs, isBlank b = true) : words bs = [] := by
  induction bs with
  | nil => rfl
  | cons b bs ih =>
    rw [words_cons_of_isBlank (h b (by simp))]
    exact ih fun c hc => h c (by simp [hc])

theorem words_trimEnd (cs : List Char) : words (trimEnd cs) = words cs := by
  obtain ⟨bs, hcs, hbs⟩ := append_trimEnd cs
  cases bs with
  | nil => rw [← List.append_nil (trimEnd cs), ← hcs]
  | cons b bs =>
    conv => rhs; rw [hcs]
    have hnone : words bs = [] := words_of_blank fun c hc => hbs c (List.mem_cons_of_mem b hc)
    rw [words_append_cons_of_isBlank (hbs b (by simp)), hnone, List.append_nil]

end Text

/-! ## What a line says -/

/-- What the words of a line say: nothing, a clause, or what is wrong with them. -/
def Clause.ofLine : List String → Except StatementError (Option Clause)
  | [] => .ok none
  | word :: words =>
    match Opcode.ofKeyword? word with
    | none => .error (.unknownOperator word)
    | some op =>
      match ofWords? op words with
      | none => .error (.missingOperands op words.length)
      | some clause => .ok (some clause)

/-- A statement is what its line says, with the number of the line and its text. -/
theorem Statement.parse_eq (text : String) (line : Int) : parse text line =
    (Clause.ofLine ((Text.words text.toList).map String.ofList)).map (·.map fun clause =>
      ⟨clause, line, String.ofList (Text.trimEnd text.toList)⟩) := by
  unfold parse Clause.ofLine
  cases (Text.words text.toList).map String.ofList with
  | nil => rfl
  | cons word words =>
    simp only
    cases Opcode.ofKeyword? word with
    | none => rfl
    | some op =>
      simp only
      cases Clause.ofWords? op words <;> rfl

/-- What is known of a statement and the line that it is on. -/
theorem Statement.parse_eq_some {text : String} {line : Int} {st : Statement}
    (h : parse text line = .ok (some st)) :
    Clause.ofLine ((Text.words text.toList).map String.ofList) = .ok (some st.clause) ∧
      st.line = line ∧ st.text = String.ofList (Text.trimEnd text.toList) := by
  rw [parse_eq] at h
  cases hsaid : Clause.ofLine ((Text.words text.toList).map String.ofList) with
  | error cause =>
    rw [hsaid] at h
    cases h
  | ok said =>
    rw [hsaid] at h
    cases said with
    | none => cases h
    | some clause =>
      cases h
      exact ⟨rfl, rfl, rfl⟩

theorem Opcode.keyword_of_ofKeyword? {word : String} {op : Opcode}
    (h : ofKeyword? word = some op) : op.keyword = word := by
  simpa using List.find?_some h

/-- The words of the line of a statement are the keyword, the operands and perhaps a comment. -/
theorem Statement.words_of_parse {text : String} {line : Int} {st : Statement}
    (h : parse text line = .ok (some st)) : ∃ comment,
      (Text.words text.toList).map String.ofList =
        st.clause.opcode.keyword :: (st.clause.operands ++ comment) := by
  rcases parse_eq_some h with ⟨hsaid, -, -⟩
  unfold Clause.ofLine at hsaid
  split at hsaid
  · cases hsaid
  · next word words hwords =>
    split at hsaid
    · cases hsaid
    · next op hop =>
      split at hsaid
      · cases hsaid
      · next clause hclause =>
        cases hsaid
        rcases Clause.operands_of_ofWords? hclause with ⟨hopcode, hoperands⟩
        refine ⟨words.drop op.arity, ?_⟩
        rw [hwords, hopcode, hoperands, List.take_append_drop, Opcode.keyword_of_ofKeyword? hop]

/-- The clause on the source line of a placement. -/
def Placement.clause? (p : Placement) : Option Clause :=
  match Statement.parse p.source 0 with
  | .ok (some statement) => some statement.clause
  | _ => none

/-- The words of a placement's source line that stand for data. -/
def Placement.dataWords (p : Placement) : List String :=
  match p.clause? with
  | some (.operation op) => op.data
  | _ => []

/-- A statement keeps of its line what is needed to read its clause again. -/
theorem Statement.parse_text {text : String} {line : Int} {st : Statement}
    (h : Statement.parse text line = .ok (some st)) (start : Int) (code : Code) :
    (⟨start, code, st.text⟩ : Placement).clause? = some st.clause := by
  rcases Statement.parse_eq_some h with ⟨hsaid, -, htext⟩
  unfold Placement.clause?
  rw [Statement.parse_eq, htext, String.toList_ofList, Text.words_trimEnd, hsaid]
  rfl

/-! ## Rows of cells in a store -/

theorem Program.get?_insertCells (p : Program) (start : Int) (cells : List Cell) (a : Int) :
    (p.insertCells start cells)[a]? =
      if start ≤ a ∧ a < start + cells.length then cells[(a - start).toNat]? else p[a]? := by
  induction cells generalizing p start with
  | nil =>
    simp [insertCells]
  | cons cell cells ih =>
    simp only [insertCells, ih, AddressMap.get?_insert, List.length_cons]
    push_cast
    by_cases hfirst : start = a
    · subst hfirst
      simp
    · by_cases hin : start + 1 ≤ a ∧ a < start + 1 + cells.length
      · obtain ⟨k, hk⟩ : ∃ k : Nat, (a - start).toNat = k + 1 := ⟨(a - start - 1).toNat, by omega⟩
        have hk' : (a - (start + 1)).toNat = k := by omega
        have hin' : start ≤ a ∧ a < start + (cells.length + 1) := by omega
        simp [hin, hin', hk, hk']
      · have hin' : ¬(start ≤ a ∧ a < start + (cells.length + 1)) := by omega
        rw [if_neg hin, if_neg hin', if_neg hfirst]

/-- Cells that are added where there were none are counted. -/
theorem Program.size_insertCells {p : Program} {start : Int} (cells : List Cell)
    (h : ∀ a, start ≤ a → p[a]? = none) :
    (p.insertCells start cells).size = p.size + cells.length := by
  induction cells generalizing p start with
  | nil => rfl
  | cons cell cells ih =>
    have hfree : p.contains start = false := by
      rw [Std.ExtTreeMap.contains_eq_isSome_getElem?, h start (Int.le_refl start)]
      rfl
    rw [insertCells, ih]
    · rw [Std.ExtTreeMap.size_insert, hfree, List.length_cons]
      simp only [Bool.false_eq_true, if_false]
      omega
    · intro a ha
      rw [AddressMap.get?_insert, if_neg (by omega)]
      exact h a (by omega)

/-- Every piece of code has a cell. -/
theorem Code.size_pos (c : Code) : 0 < c.size := by
  cases c with
  | preamble => simp
  | define value a => simp
  | operation op =>
    rw [size_operation]
    split <;> omega

/-- The placements lie one after the other, from one address up to another. -/
inductive Tiles : Int → List Placement → Int → Prop where
  | nil (a : Int) : Tiles a [] a
  | cons {p : Placement} {ps : List Placement} {a b : Int} (start : p.start = a)
      (rest : Tiles (p.start + p.code.size) ps b) : Tiles a (p :: ps) b

namespace Tiles

variable {a b : Int} {ps qs : List Placement} {p q : Placement}

theorem snoc (h : Tiles a ps b) (hp : p.start = b) :
    Tiles a (ps ++ [p]) (p.start + p.code.size) := by
  induction h with
  | nil a => exact .cons hp (.nil _)
  | cons start rest ih => exact .cons start (ih hp)

theorem eq_of_nil (h : Tiles a [] b) : a = b := by
  cases h
  rfl

theorem start_eq (h : Tiles a (p :: ps) b) : p.start = a := by
  cases h with
  | cons start rest => exact start

theorem le (h : Tiles a ps b) : a ≤ b := by
  induction h with
  | nil a => exact Int.le_refl a
  | cons start rest ih => omega

theorem mem (h : Tiles a ps b) (hp : p ∈ ps) : a ≤ p.start ∧ p.start + p.code.size ≤ b := by
  induction h with
  | nil a => simp at hp
  | @cons q ps a b start rest ih =>
    have := rest.le
    rcases List.mem_cons.mp hp with rfl | hp
    · omega
    · have := ih hp
      omega

theorem split (h : Tiles a (ps ++ qs) b) : ∃ k, Tiles a ps k ∧ Tiles k qs b := by
  induction ps generalizing a with
  | nil => exact ⟨a, .nil a, h⟩
  | cons p ps ih =>
    cases h with
    | cons start rest =>
      rcases ih rest with ⟨k, hps, hqs⟩
      exact ⟨k, .cons start hps, hqs⟩

/-- Every address of the row is in a placement. -/
theorem exists_mem (h : Tiles a ps b) {x : Int} (ha : a ≤ x) (hb : x < b) :
    ∃ p ∈ ps, ∃ i : Nat, i < p.code.size ∧ x = p.start + i := by
  induction h with
  | nil a => omega
  | @cons q ps a b start rest ih =>
    by_cases hx : x < q.start + q.code.size
    · exact ⟨q, by simp, (x - q.start).toNat, by omega, by omega⟩
    · obtain ⟨p, hp, i, hi, heq⟩ := ih (by omega) hb
      exact ⟨p, by simp [hp], i, hi, heq⟩

/-- No address is in two placements. -/
theorem unique (h : Tiles a ps b) (hp : p ∈ ps) (hq : q ∈ ps) {i j : Nat} (hi : i < p.code.size)
    (hj : j < q.code.size) (heq : p.start + i = q.start + j) : p = q ∧ i = j := by
  induction h with
  | nil a => simp at hp
  | @cons r ps a b start rest ih =>
    rcases List.mem_cons.mp hp with rfl | hp' <;> rcases List.mem_cons.mp hq with rfl | hq'
    · exact ⟨rfl, by omega⟩
    · have := rest.mem hq'
      omega
    · have := rest.mem hp'
      omega
    · exact ih hp' hq'

theorem eq_of_start (h : Tiles a ps b) (hp : p ∈ ps) (hq : q ∈ ps) (heq : p.start = q.start) :
    p = q :=
  (h.unique (i := 0) (j := 0) hp hq p.code.size_pos q.code.size_pos (by omega)).1

/-- What comes after a placement is another one or the end of the row. -/
theorem next (h : Tiles a ps b) (hp : p ∈ ps) :
    p.start + p.code.size = b ∨ ∃ q ∈ ps, q.start = p.start + p.code.size := by
  induction h with
  | nil a => simp at hp
  | @cons r ps a b start rest ih =>
    rcases List.mem_cons.mp hp with rfl | hp'
    · cases ps with
      | nil => exact Or.inl rest.eq_of_nil
      | cons q ps => exact Or.inr ⟨q, by simp, rest.start_eq⟩
    · rcases ih hp' with hend | ⟨q, hq, hstart⟩
      · exact Or.inl hend
      · exact Or.inr ⟨q, by simp [hq], hstart⟩

end Tiles

/-! ## Compiling a line -/

/-- The issue is a definition that comes after the first operation. -/
def Issue.isLateDefinition : Issue → Bool
  | .lateDefinition _ => true
  | _ => false

/-- The code is that of the clause, its operands resolved in the table. -/
inductive Code.Realizes (t : SymbolTable) : Clause → Code → Prop where
  | define {name token : String} {pattern a : Int} (hname : nameError? name = none)
      (ha : t.lookup? name = some a) (hvalue : t.Yields token pattern) :
      Realizes t (.define name token) (.define (Byte.decode pattern) a)
  | operation {op : Operation String} {op' : Operation Int} (hop : op.Rel t.Resolves op') :
      Realizes t (.operation op) (.operation op')

theorem Code.Realizes.mono {t t' : SymbolTable} (hext : t'.Extends t) {clause : Clause}
    {code : Code} (h : code.Realizes t clause) : code.Realizes t' clause := by
  cases h with
  | define hname ha hvalue => exact .define hname (hext _ _ ha) (hvalue.mono hext)
  | operation hop => exact .operation (hop.mono fun _ _ h => h.mono hext)

theorem Operation.opcode_ne_define {ω : Type} (op : Operation ω) : op.opcode ≠ .define := by
  cases op with
  | jump | jumpVia | move => nofun
  | arith op => cases op <;> nofun
  | branch cond => cases cond <;> nofun

namespace Session

variable {s s' : Session} {text : String} {line : Int}

/-- Nothing is placed, and nothing is made known: at most there are more diagnostics. -/
structure Reported (s s' : Session) : Prop where
  symbols : s'.symbols = s.symbols
  pc : s'.pc = s.pc
  program : s'.program = s.program
  listing : s'.listing = s.listing
  closed : s'.definitionsClosed = s.definitionsClosed
  diagnostics : s.diagnostics ⊆ s'.diagnostics

theorem Reported.refl (s : Session) : s.Reported s :=
  ⟨rfl, rfl, rfl, rfl, rfl, fun _ h => h⟩

theorem Reported.trans {s₁ s₂ s₃ : Session} (h : s₁.Reported s₂) (h' : s₂.Reported s₃) :
    s₁.Reported s₃ :=
  ⟨h'.symbols.trans h.symbols, h'.pc.trans h.pc, h'.program.trans h.program,
    h'.listing.trans h.listing, h'.closed.trans h.closed,
    fun _ hd => h'.diagnostics (h.diagnostics hd)⟩

theorem reported_note (s : Session) (level : Log.Level) (message : Except Text.TooManyDigits String) :
    s.Reported (s.note level message) := ⟨rfl, rfl, rfl, rfl, rfl, fun _ h => h⟩

theorem reported_report (s : Session) (line : Int) (cause : Issue) :
    s.Reported (s.report line cause) :=
  ⟨rfl, rfl, rfl, rfl, rfl, fun _ h => List.mem_append_left _ h⟩

/-- The warnings of a line are all reported, and nothing else happens. -/
theorem reported_warnings (s : Session) (line : Int) (warnings : List Issue) :
    s.Reported (warnings.foldl (report line) s) ∧
      (warnings.foldl (report line) s).diagnostics = s.diagnostics ++ warnings.map (⟨·, line⟩) := by
  induction warnings generalizing s with
  | nil => exact ⟨.refl s, by simp⟩
  | cons w ws ih =>
    obtain ⟨hrest, hdiagnostics⟩ := ih (s.report line w)
    refine ⟨(s.reported_report line w).trans hrest, ?_⟩
    rw [List.foldl_cons, hdiagnostics]
    simp [report, note]

open LineWork

theorem requireSpace_ok {cells : Nat} {ws ws' : List Issue} {u : Unit}
    (h : (s.requireSpace cells).run ws = (.ok u, ws')) :
    s.pc + cells ≤ programLimit ∧ ws' = ws := by
  unfold requireSpace lackOfSpace? at h
  by_cases hlack : programLimit < s.pc + cells
  · rw [if_pos hlack] at h
    cases (Prod.mk.inj h).1
  · rw [if_neg hlack] at h
    cases h
    exact ⟨by omega, rfl⟩

/-- Work that begins with a warning in one case only goes on in the same way in both. -/
theorem run_warnIf {α : Type} {c : Bool} {w : Issue} {rest : LineWork α} {ws : List Issue} {r : α}
    (h : (if c then do warn w; rest else rest : LineWork α).run [] = (.ok r, ws)) :
    ∃ ws₀, (c = true → w ∈ ws₀) ∧ rest.run ws₀ = (.ok r, ws) := by
  split at h
  · obtain ⟨_, ws₁, hwarn, h⟩ := run_bind_ok h
    cases hwarn
    exact ⟨_, fun _ => by simp, h⟩
  · next hnot => exact ⟨[], fun hc => absurd hc hnot, h⟩

/-- What the code of a statement is, and what becomes of the symbol table. -/
structure Coded (s : Session) (st : Statement) (code : Code) (symbols : SymbolTable)
    (warnings : List Issue) : Prop where
  room : s.pc + code.size ≤ programLimit
  /-- A definition makes its name known; nothing else changes the table. -/
  kind : (∃ name token pattern v, st.clause = .define name token ∧
      s.symbols.Yields token pattern ∧
      s.symbols.define name pattern st.line = .ok (v, symbols) ∧
      code = .define (Byte.decode pattern) v.address ∧
      (s.definitionsClosed = true → .lateDefinition name ∈ warnings)) ∨
    (∃ op op', st.clause = .operation op ∧ op.Rel s.symbols.Resolves op' ∧
      code = .operation op' ∧ symbols = s.symbols)

theorem coded_of_codeFor {st : Statement} {code : Code} {symbols : SymbolTable}
    {ws : List Issue} (h : (s.codeFor st).run [] = (.ok (code, symbols), ws)) :
    s.Coded st code symbols ws := by
  unfold codeFor at h
  cases hclause : st.clause with
  | operation op =>
    rw [hclause] at h
    obtain ⟨op', ws₁, hop, h⟩ := run_bind_ok h
    obtain ⟨_, ws₂, hroom, h⟩ := run_bind_ok h
    cases h
    exact ⟨(requireSpace_ok hroom).1,
      Or.inr ⟨op, op', hclause, Operation.rel_of_mapM hop, rfl, rfl⟩⟩
  | define name token =>
    rw [hclause] at h
    -- whether the definition is late matters to the warnings only
    obtain ⟨ws₀, hlate, h⟩ := run_warnIf h
    obtain ⟨pattern, ws₁, hvalue, h⟩ := run_bind_ok h
    rw [SymbolTable.value_run] at hvalue
    obtain ⟨hyields, rfl⟩ := Prod.mk.inj hvalue
    cases hname : nameError? name with
    | some cause =>
      rw [hname] at h
      obtain ⟨_, _, hreject, _⟩ := run_bind_ok h
      cases (Prod.mk.inj hreject).1
    | none =>
      rw [hname] at h
      obtain ⟨_, ws₂, hroom, h⟩ := run_bind_ok h
      obtain ⟨hspace, rfl⟩ := requireSpace_ok hroom
      cases hdefine : s.symbols.define name pattern st.line with
      | error cause =>
        rw [hdefine] at h
        cases (Prod.mk.inj h).1
      | ok r =>
        rw [hdefine] at h
        cases h
        exact ⟨hspace, Or.inl ⟨name, token, pattern, r.1, hclause, hyields, hdefine, rfl,
          fun hclosed => List.mem_append_left _ (hlate hclosed)⟩⟩

/-- A statement places one piece of code and makes its definition known. -/
structure Placed (s s' : Session) (st : Statement) (code : Code) : Prop where
  pc : s'.pc = s.pc + code.size
  program : s'.program = s.program.insertCells s.pc (code.cells s.pc)
  listing : s'.listing = s.listing ++ [⟨s.pc, code, st.text⟩]
  closed : s'.definitionsClosed = s.definitionsClosed
  diagnostics : s.diagnostics ⊆ s'.diagnostics
  coded : ∃ warnings, s.Coded st code s'.symbols warnings ∧
    ∀ w ∈ warnings, ⟨w, st.line⟩ ∈ s'.diagnostics

/-- A statement places the code that it emits, and is only reported if it emits none. -/
theorem compileStatement_spec (s : Session) (st : Statement) :
    match (s.compileStatement st).2 with
    | .emitted code => s.Placed (s.compileStatement st).1 st code
    | _ => s.Reported (s.compileStatement st).1 := by
  obtain ⟨hreported, hdiagnostics⟩ := s.reported_warnings st.line (s.codeFor st).outcome.2
  unfold compileStatement
  cases hcode : (s.codeFor st).outcome with
  | mk result warnings =>
    rw [hcode] at hreported hdiagnostics
    simp only at hreported hdiagnostics ⊢
    cases result with
    | error obstacle =>
      cases obstacle with
      | issue cause => exact hreported.trans (reported_report _ _ cause)
      | tooManyDigits cause => exact hreported
    | ok r =>
      obtain ⟨code, symbols⟩ := r
      have hcoded : s.Coded st code symbols warnings := coded_of_codeFor hcode
      refine ⟨?_, ?_, ?_, ?_, hreported.diagnostics, warnings, hcoded, fun w hw => ?_⟩
      · simp [note, place, hreported.pc]
      · simp [note, place, hreported.pc, hreported.program]
      · simp [note, place, hreported.pc, hreported.listing]
      · simp [note, place, hreported.closed]
      · simp [note, place, hdiagnostics, hw]

theorem compileStatement_cases (s : Session) (st : Statement) :
    s.Reported (s.compileStatement st).1 ∨
      ∃ code, s.Placed (s.compileStatement st).1 st code := by
  have hspec := s.compileStatement_spec st
  split at hspec
  · exact Or.inr ⟨_, hspec⟩
  · exact Or.inl hspec

/-- A line is reported or placed; before that, it may make any later definition a late one. -/
theorem compileLine_cases (s : Session) (text : String) (line : Int) :
    s.Reported (s.compileLine text line).1 ∨
    ∃ st, Statement.parse text line = .ok (some st) ∧ ∃ s₀ : Session,
      s₀ = { s with definitionsClosed := s.definitionsClosed || st.clause.opcode != .define } ∧
      (s₀.Reported (s.compileLine text line).1 ∨
        ∃ code, s₀.Placed (s.compileLine text line).1 st code) := by
  unfold compileLine
  cases hparse : Statement.parse text line with
  | error cause => exact Or.inl (s.reported_report line (.statement cause))
  | ok r =>
    cases r with
    | none => exact Or.inl (.refl s)
    | some st => exact Or.inr ⟨st, rfl, _, rfl, compileStatement_cases _ st⟩

/-- A line that emits code is a statement for which the code is placed. -/
theorem placed_of_emitted {text : String} {line : Int} {code : Code}
    (h : (s.compileLine text line).2 = .emitted code) :
    ∃ st, Statement.parse text line = .ok (some st) ∧ ({ s with
      definitionsClosed := s.definitionsClosed || st.clause.opcode != .define } : Session).Placed
        (s.compileLine text line).1 st code := by
  unfold compileLine at h ⊢
  cases hparse : Statement.parse text line with
  | error cause =>
    rw [hparse] at h
    cases h
  | ok parsed =>
    rw [hparse] at h
    cases parsed with
    | none => cases h
    | some st =>
      have hspec := ({ s with
        definitionsClosed := s.definitionsClosed || st.clause.opcode != .define } :
          Session).compileStatement_spec st
      simp only at h
      rw [h] at hspec
      exact ⟨st, rfl, hspec⟩

theorem Coded.extends {st : Statement} {code : Code} {symbols : SymbolTable} {ws : List Issue}
    (h : s.Coded st code symbols ws) : symbols.Extends s.symbols := by
  rcases h.kind with ⟨_, _, _, _, _, _, hdefine, _, _⟩ | ⟨_, _, _, _, _, rfl⟩
  · exact SymbolTable.extends_define hdefine
  · exact .refl _

theorem Coded.realizes {st : Statement} {code : Code} {symbols : SymbolTable} {ws : List Issue}
    (hs : s.symbols.Allotted) (h : s.Coded st code symbols ws) :
    code.Realizes symbols st.clause := by
  rcases h.kind with ⟨name, token, pattern, v, hclause, hyields, hdefine, hcode, -⟩ |
    ⟨op, op', hclause, hop, hcode, hsymbols⟩
  · rw [hclause, hcode]
    exact .define (SymbolTable.define_cases hdefine).1 (hs.lookup?_define hdefine)
      (hyields.mono (SymbolTable.extends_define hdefine))
  · rw [hclause, hcode, hsymbols]
    exact .operation hop

/-! ## The invariant -/

/-- No definition was reported as late. -/
def NoLateDefinition (s : Session) : Prop :=
  ∀ d ∈ s.diagnostics, d.issue.isLateDefinition = false

instance (s : Session) : Decidable s.NoLateDefinition :=
  inferInstanceAs (Decidable (∀ d ∈ s.diagnostics, d.issue.isLateDefinition = false))

/-- Every operand that stands for data, on the line of any piece of code, is a name. -/
def NamedData (s : Session) : Prop :=
  ∀ p ∈ s.listing, ∀ w ∈ p.dataWords, s.symbols.contains w = true

instance (s : Session) : Decidable s.NamedData :=
  inferInstanceAs (Decidable (∀ p ∈ s.listing, ∀ w ∈ p.dataWords, s.symbols.contains w = true))

/-- The placement that every program begins with. -/
def preamble : Placement := ⟨0, .preamble, "preamble"⟩

/-- What is known of a session at any time. -/
structure Sound (s : Session) : Prop where
  tiles : Tiles 0 s.listing s.pc
  room : s.pc ≤ programLimit
  size : (s.program.size : Int) = s.pc
  program : ∀ x c, s.program[x]? = some c ↔
    ∃ p ∈ s.listing, ∃ i : Nat, x = p.start + i ∧ (p.code.cells p.start)[i]? = some c
  standard : s.symbols.Standard
  /-- The code of a placement is that of the clause on its line. -/
  realized : ∃ ps, s.listing = preamble :: ps ∧
    ∀ p ∈ ps, ∃ clause, p.clause? = some clause ∧ p.code.Realizes s.symbols clause
  /-- Every variable has been given a value. -/
  defined : ∀ v ∈ s.symbols.variables, ∃ p ∈ s.listing, ∃ value, p.code = .define value v.address
  /-- Definitions come first. -/
  order : s.NoLateDefinition → ∃ ds os, s.listing = ds ++ os ∧
    (∀ p ∈ ds, p.code.isOperation = false) ∧ (∀ p ∈ os, p.code.isOperation = true) ∧
    (s.definitionsClosed = false → os = [])

theorem Sound.reported (h : s.Sound) (hr : s.Reported s') : s'.Sound := by
  refine ⟨?_, ?_, ?_, ?_, ?_, ?_, ?_, ?_⟩
  · rw [hr.listing, hr.pc]
    exact h.tiles
  · rw [hr.pc]
    exact h.room
  · rw [hr.program, hr.pc]
    exact h.size
  · rw [hr.program, hr.listing]
    exact h.program
  · rw [hr.symbols]
    exact h.standard
  · rw [hr.listing, hr.symbols]
    exact h.realized
  · rw [hr.listing, hr.symbols]
    exact h.defined
  · intro hlate
    rw [hr.listing, hr.closed]
    exact h.order fun d hd => hlate d (hr.diagnostics hd)

theorem Sound.close (h : s.Sound) (closes : Bool) :
    ({ s with definitionsClosed := s.definitionsClosed || closes } : Session).Sound := by
  refine ⟨h.tiles, h.room, h.size, h.program, h.standard, h.realized, h.defined, fun hlate => ?_⟩
  obtain ⟨ds, os, hlisting, hds, hos, hopen⟩ := h.order hlate
  refine ⟨ds, os, hlisting, hds, hos, fun hclosed => hopen ?_⟩
  simp only [Bool.or_eq_false_iff] at hclosed
  exact hclosed.1

/-- Beyond the last placement there is nothing. -/
theorem Sound.get?_of_le (h : s.Sound) {x : Int} (hx : x < 0 ∨ s.pc ≤ x) : s.program[x]? = none := by
  rw [Option.eq_none_iff_forall_ne_some]
  intro c hc
  rcases (h.program x c).mp hc with ⟨p, hp, i, heq, hi⟩
  have hmem := h.tiles.mem hp
  have hlt := (List.getElem?_eq_some_iff.mp hi).1
  rw [Code.length_cells] at hlt
  omega

/-- The cells of a piece of code are added to those that are there already. -/
theorem get?_placed {p : Program} {listing : List Placement} {pc : Int}
    (htiles : Tiles 0 listing pc)
    (hp : ∀ x c, p[x]? = some c ↔
      ∃ q ∈ listing, ∃ i : Nat, x = q.start + i ∧ (q.code.cells q.start)[i]? = some c)
    (code : Code) (source : String) (x : Int) (c : Cell) :
    (p.insertCells pc (code.cells pc))[x]? = some c ↔
      ∃ q ∈ listing ++ [⟨pc, code, source⟩], ∃ i : Nat, x = q.start + i ∧
        (q.code.cells q.start)[i]? = some c := by
  have hlt : ∀ {q : Placement} {i : Nat}, (q.code.cells q.start)[i]? = some c →
      i < q.code.size := by
    intro q i hi
    have := (List.getElem?_eq_some_iff.mp hi).1
    rwa [Code.length_cells] at this
  rw [Program.get?_insertCells, Code.length_cells]
  constructor
  · intro h
    split at h
    · next hin => exact ⟨⟨pc, code, source⟩, by simp, (x - pc).toNat, by simp only; omega, h⟩
    · rcases (hp x c).mp h with ⟨q, hq, i, hx, hi⟩
      exact ⟨q, List.mem_append_left _ hq, i, hx, hi⟩
  · rintro ⟨q, hq, i, hx, hi⟩
    rcases List.mem_append.mp hq with hq | hq
    · -- the new cells come after all that are there
      have hmem := htiles.mem hq
      have hsize := hlt hi
      rw [if_neg (by omega)]
      exact (hp x c).mpr ⟨q, hq, i, hx, hi⟩
    · have hq' := List.mem_singleton.mp hq
      subst hq'
      have hsize := hlt hi
      simp only at hx hi hsize
      rw [if_pos (by omega)]
      have hi' : (x - pc).toNat = i := by omega
      rw [hi']
      exact hi

/-- Code that is placed behind all that is there keeps the session sound; that of an operation is
placed when no definition can follow in time. -/
theorem Sound.placed {st : Statement} {code : Code} (h : s.Sound) (hp : s.Placed s' st code)
    (hparse : ∀ start code, (⟨start, code, st.text⟩ : Placement).clause? = some st.clause)
    (hclosed : st.clause.opcode ≠ .define → s.definitionsClosed = true) : s'.Sound := by
  rcases hp.coded with ⟨warnings, hcoded, hwarnings⟩
  have hextends := hcoded.extends
  have hrealizes := hcoded.realizes h.standard.toAllotted
  constructor
  case tiles =>
    rw [hp.listing, hp.pc]
    exact h.tiles.snoc rfl
  case room =>
    rw [hp.pc]
    exact hcoded.room
  case size =>
    rw [hp.program, hp.pc, Program.size_insertCells _ fun a ha => h.get?_of_le (Or.inr ha),
      Code.length_cells]
    push_cast
    rw [h.size]
  case program =>
    rw [hp.program, hp.listing]
    exact get?_placed h.tiles h.program code st.text
  case standard =>
    -- only a definition changes the table, and it puts one variable at the free end of it
    rcases hcoded.kind with ⟨name, token, pattern, v, _, _, hdefine, _, _⟩ | ⟨_, _, _, _, _, heq⟩
    · rcases SymbolTable.define_frame hdefine with ⟨_, _, hstart, hcapacity⟩
      exact ⟨h.standard.toAllotted.define hdefine, hstart.trans h.standard.heapStart,
        hcapacity.trans h.standard.capacity⟩
    · rw [heq]
      exact h.standard
  case realized =>
    -- operands that were resolved stay so, as the table only grows
    rcases h.realized with ⟨ps, hlisting, hps⟩
    refine ⟨ps ++ [⟨s.pc, code, st.text⟩], by simp [hp.listing, hlisting], ?_⟩
    intro p hmem
    rcases List.mem_append.mp hmem with hmem | hmem
    · rcases hps p hmem with ⟨clause, hclause, hreal⟩
      exact ⟨clause, hclause, hreal.mono hextends⟩
    · rw [List.mem_singleton.mp hmem]
      exact ⟨st.clause, hparse _ _, hrealizes⟩
  case defined =>
    intro v hv
    rw [hp.listing]
    have hold : v ∈ s.symbols.variables →
        ∃ p ∈ s.listing ++ [⟨s.pc, code, st.text⟩], ∃ value, p.code = .define value v.address := by
      intro hv
      rcases h.defined v hv with ⟨p, hmem, value, hcode⟩
      exact ⟨p, List.mem_append_left _ hmem, value, hcode⟩
    rcases hcoded.kind with ⟨name, token, pattern, w, _, _, hdefine, hcode, _⟩ |
      ⟨_, _, _, _, _, heq⟩
    · rcases SymbolTable.define_frame hdefine with ⟨_, hvars, _⟩
      rcases hvars v hv with rfl | hv
      · exact ⟨⟨s.pc, code, st.text⟩, by simp, _, hcode⟩
      · exact hold hv
    · rw [heq] at hv
      exact hold hv
  case order =>
    intro hlate
    rcases h.order fun d hd => hlate d (hp.diagnostics hd) with ⟨ds, os, hlisting, hds, hos, hopen⟩
    rcases hcoded.kind with ⟨name, token, pattern, v, _, _, _, hcode, hwarn⟩ |
      ⟨op, op', hclause, _, hcode, _⟩
    · -- a definition that is not late comes before any operation
      have hfalse : s.definitionsClosed = false := by
        rw [← Bool.not_eq_true]
        intro htrue
        have hlater := hlate _ (hwarnings _ (hwarn htrue))
        cases hlater
      have hnil := hopen hfalse
      subst hnil
      refine ⟨ds ++ [⟨s.pc, code, st.text⟩], [], by simp [hp.listing, hlisting], ?_, by simp,
        fun _ => rfl⟩
      intro p hmem
      rcases List.mem_append.mp hmem with hmem | hmem
      · exact hds p hmem
      · rw [List.mem_singleton.mp hmem, hcode]
        rfl
    · -- an operation closes the definitions, so it may stand behind all that is there
      have htrue : s'.definitionsClosed = true := by
        rw [hp.closed]
        apply hclosed
        rw [hclause]
        exact op.opcode_ne_define
      refine ⟨ds, os ++ [⟨s.pc, code, st.text⟩], by simp [hp.listing, hlisting], hds, ?_,
        by simp [htrue]⟩
      intro p hmem
      rcases List.mem_append.mp hmem with hmem | hmem
      · exact hos p hmem
      · rw [List.mem_singleton.mp hmem, hcode]
        rfl

theorem Sound.compileLine (h : s.Sound) (text : String) (line : Int) :
    (s.compileLine text line).1.Sound := by
  rcases s.compileLine_cases text line with hreported | ⟨st, hparse, s₀, hs₀, hreported | hplaced⟩
  · exact h.reported hreported
  · have h₀ : s₀.Sound := hs₀ ▸ h.close _
    exact h₀.reported hreported
  · have h₀ : s₀.Sound := hs₀ ▸ h.close _
    rcases hplaced with ⟨code, hplaced⟩
    refine h₀.placed hplaced (Statement.parse_text hparse) ?_
    intro hne
    simp [hs₀, hne]

/-- What every line keeps is kept by any number of lines. -/
theorem compileLines_induction {I : Session → Prop}
    (hstep : ∀ s text line, I s → I (s.compileLine text line).1) (hs : I s)
    (lines : List (Int × String)) : I (s.compileLines lines).1 := by
  induction lines generalizing s with
  | nil => exact hs
  | cons first rest ih =>
    have hline := hstep s first.2 first.1 hs
    unfold Session.compileLines
    split
    · next s₁ cause heq =>
      rw [heq] at hline
      exact hline
    · next s₁ outcome hne heq =>
      rw [heq] at hline
      exact ih hline

theorem Sound.compileLines (h : s.Sound) (lines : List (Int × String)) :
    (s.compileLines lines).1.Sound :=
  compileLines_induction (fun _ text line h => h.compileLine text line) h lines

theorem sound_start : (start {}).Sound := by
  have hstart : start {} = ({} : Session).place .preamble "preamble" := rfl
  rw [hstart]
  constructor
  case tiles => exact (Tiles.nil 0).snoc (p := preamble) rfl
  case room => decide
  case size =>
    have hcount : ((∅ : Program).insertCells 0 (Code.preamble.cells 0)).size =
        (∅ : Program).size + (Code.preamble.cells 0).length :=
      Program.size_insertCells _ (by simp)
    rw [Code.length_cells] at hcount
    exact congrArg Nat.cast hcount
  case program => exact get?_placed (.nil 0) (by simp) .preamble "preamble"
  case standard => exact ⟨SymbolTable.allotted_empty _ _, rfl, rfl⟩
  case realized => exact ⟨[], rfl, by simp⟩
  case defined =>
    intro v hv
    simp [place] at hv
  case order =>
    intro _
    refine ⟨[preamble], [], rfl, ?_, by simp, fun _ => rfl⟩
    intro p hp
    rw [List.mem_singleton.mp hp]
    rfl

/-- Whatever the source, what compiling comes to is sound. -/
theorem sound_compile (source : String) : (compile {} source).1.Sound := by
  have hlines := sound_start.compileLines (Text.numberedLines source)
  unfold compile
  split
  · next s cause heq =>
    rw [heq] at hlines
    exact hlines
  · next s heq =>
    rw [heq] at hlines
    exact hlines.reported (reported_note _ _ _)

/-- A compilation that was not ended early comes to its session. -/
theorem compile_eq {symbols : SymbolTable} {source : String}
    (h : (compile symbols source).2 = none) :
    compile symbols source = ((compile symbols source).1, none) := Prod.ext rfl h

theorem compileProgram_eq {source : String} (h : (compile {} source).2 = none) :
    compileProgram source = .ok (compile {} source).1.program := by
  unfold compileProgram
  rw [compile_eq h]

theorem sound_of_compile {source : String} {s : Session}
    (h : compile {} source = (s, none)) : s.Sound := by
  have hsound := sound_compile source
  rw [h] at hsound
  exact hsound

/-! ## What follows from it -/

theorem Sound.fetch (h : s.Sound) {p : Placement} (hp : p ∈ s.listing) {i : Nat} {c : Cell}
    (hi : (p.code.cells p.start)[i]? = some c) : s.program.fetch (p.start + i) = c := by
  have hget : s.program[p.start + (i : Int)]? = some c := (h.program _ c).mpr ⟨p, hp, i, rfl, hi⟩
  simp [Program.fetch, hget]

/-- What holds of each cell of a placement holds of what is at its addresses. -/
theorem Sound.at_of_each (h : s.Sound) {p : Placement} (hp : p ∈ s.listing)
    {P : Int → Cell → Prop} (heach : EachCell P p.start (p.code.cells p.start)) {x : Int}
    (hle : p.start ≤ x) (hlt : x < p.start + p.code.size) : P x (s.program.fetch x) := by
  rcases Int.le.dest hle with ⟨i, rfl⟩
  have hi : i < (p.code.cells p.start).length := by
    rw [Code.length_cells]
    omega
  have hcell := List.getElem?_eq_getElem hi
  rw [h.fetch hp hcell]
  exact eachCell_iff.mp heach i _ hcell

/-- An address is in a placement, or there is nothing at it. -/
theorem Sound.fetch_cases (h : s.Sound) (x : Int) :
    (∃ p ∈ s.listing, p.start ≤ x ∧ x < p.start + p.code.size) ∨
    (s.program.fetch x = .empty ∧ (x < 0 ∨ s.pc ≤ x)) := by
  by_cases hin : 0 ≤ x ∧ x < s.pc
  · left
    rcases h.tiles.exists_mem hin.1 hin.2 with ⟨p, hp, i, hi, hx⟩
    exact ⟨p, hp, by omega, by omega⟩
  · right
    have hout : x < 0 ∨ s.pc ≤ x := by omega
    exact ⟨by simp [Program.fetch, h.get?_of_le hout], hout⟩

/-- Loads are in the preamble and in definitions. -/
theorem Sound.fetch_load (h : s.Sound) {x v a next : Int}
    (hfetch : s.program.fetch x = .load v a next) :
    ∃ p ∈ s.listing, p.code.isOperation = false ∧ p.start ≤ x ∧ x < p.start + p.code.size := by
  rcases h.fetch_cases x with ⟨p, hp, hle, hlt⟩ | ⟨hempty, _⟩
  swap
  · rw [hfetch] at hempty
    cases hempty
  cases hcode : p.code.isOperation with
  | false => exact ⟨p, hp, hcode, hle, hlt⟩
  | true =>
    rcases Code.exists_operation hcode with ⟨op, hop⟩
    have hcell := h.at_of_each hp (hop ▸ Code.each_operation op p.start) hle hlt
    rw [hfetch] at hcell
    cases hcell

/-- Subtractions are in operations. -/
theorem Sound.fetch_subleq (h : s.Sound) {x a b target : Int}
    (hfetch : s.program.fetch x = .subleq a b target) (hne : Cell.subleq a b target ≠ .empty) :
    ∃ p ∈ s.listing, ∃ op, p.code = .operation op ∧ p.start ≤ x ∧ x < p.start + p.code.size := by
  rcases h.fetch_cases x with ⟨p, hp, hle, hlt⟩ | ⟨hempty, _⟩
  swap
  · exact absurd (hfetch.symm.trans hempty) hne
  cases hcode : p.code.isOperation with
  | false =>
    rcases h.at_of_each hp (Code.each_load hcode p.start) hle hlt with ⟨v, d, hload, _⟩
    rw [hfetch] at hload
    cases hload
  | true =>
    rcases Code.exists_operation hcode with ⟨op, hop⟩
    exact ⟨p, hp, op, hop, hle, hlt⟩

theorem Sound.preamble_mem (h : s.Sound) : preamble ∈ s.listing := by
  rcases h.realized with ⟨ps, hlisting, _⟩
  simp [hlisting]

theorem Sound.eq_or_realizes (h : s.Sound) {p : Placement} (hp : p ∈ s.listing) :
    p = preamble ∨ ∃ clause, p.clause? = some clause ∧ p.code.Realizes s.symbols clause := by
  rcases h.realized with ⟨ps, hlisting, hps⟩
  rw [hlisting] at hp
  rcases List.mem_cons.mp hp with hp | hp
  · exact Or.inl hp
  · exact Or.inr (hps p hp)

/-- The address at which the operations begin, if no definition comes after one. -/
def Boundary (s : Session) (k : Int) : Prop :=
  k ≤ s.pc ∧ ∀ p ∈ s.listing,
    (p.code.isOperation = false → p.start + p.code.size ≤ k) ∧
    (p.code.isOperation = true → k ≤ p.start)

theorem Sound.exists_boundary (h : s.Sound) (hlate : s.NoLateDefinition) : ∃ k, s.Boundary k := by
  rcases h.order hlate with ⟨ds, os, hlisting, hds, hos, _⟩
  have htiles := h.tiles
  rw [hlisting] at htiles
  rcases htiles.split with ⟨k, hdefs, hops⟩
  refine ⟨k, hops.le, fun p hp => ?_⟩
  rw [hlisting] at hp
  rcases List.mem_append.mp hp with hp | hp
  · exact ⟨fun _ => (hdefs.mem hp).2, fun htrue => by simp [hds p hp] at htrue⟩
  · exact ⟨fun hfalse => by simp [hos p hp] at hfalse, fun _ => (hops.mem hp).1⟩

theorem Sound.realizes_operation (h : s.Sound) {p : Placement} (hp : p ∈ s.listing)
    {op : Operation Int} (hop : p.code = .operation op) :
    ∃ op₀, p.clause? = some (.operation op₀) ∧ op₀.Rel s.symbols.Resolves op := by
  rcases h.eq_or_realizes hp with rfl | ⟨clause, hclause, hreal⟩
  · cases hop
  · rw [hop] at hreal
    cases hreal with
    | operation hrel => exact ⟨_, hclause, hrel⟩

/-- The data operands of an operation are the addresses of the words that stand for data. -/
theorem Sound.data_mem (h : s.Sound) {p : Placement} (hp : p ∈ s.listing) {op : Operation Int}
    (hop : p.code = .operation op) {a : Int} (ha : a ∈ op.data) :
    ∃ w ∈ p.dataWords, s.symbols.Resolves w a := by
  rcases h.realizes_operation hp hop with ⟨op₀, hclause, hrel⟩
  have hwords : p.dataWords = op₀.data := by
    simp [Placement.dataWords, hclause]
  rw [hwords]
  cases hrel <;> simp only [Operation.data, List.mem_cons, List.not_mem_nil, or_false] at ha ⊢
  case jumpVia ha' => exact ⟨_, rfl, ha ▸ ha'⟩
  case move ha' hb' =>
    rcases ha with rfl | rfl
    · exact ⟨_, Or.inl rfl, ha'⟩
    · exact ⟨_, Or.inr rfl, hb'⟩
  case arith ha' hb' hc' =>
    rcases ha with rfl | rfl | rfl
    · exact ⟨_, Or.inl rfl, ha'⟩
    · exact ⟨_, Or.inr (Or.inl rfl), hb'⟩
    · exact ⟨_, Or.inr (Or.inr rfl), hc'⟩
  case branch ha' hb' ht' =>
    rcases ha with rfl | rfl
    · exact ⟨_, Or.inl rfl, ha'⟩
    · exact ⟨_, Or.inr rfl, hb'⟩

/-- All operands of an operation that is placed are bytes. -/
theorem Sound.operand_mem (h : s.Sound) {p : Placement} (hp : p ∈ s.listing) {op : Operation Int}
    (hop : p.code = .operation op) : ∀ a ∈ op.operands, 0 ≤ a ∧ a ≤ 255 := by
  rcases h.realizes_operation hp hop with ⟨op₀, _, hrel⟩
  have hmem := fun {token a} (ha : s.symbols.Resolves token a) => h.standard.resolves_mem ha
  cases hrel with
  | jump ht => simpa [Operation.operands] using hmem ht
  | jumpVia ha => simpa [Operation.operands] using hmem ha
  | move ha hb => simpa [Operation.operands] using ⟨hmem ha, hmem hb⟩
  | arith ha hb hc => simpa [Operation.operands] using ⟨hmem ha, hmem hb, hmem hc⟩
  | branch ha hb ht => simpa [Operation.operands] using ⟨hmem ha, hmem hb, hmem ht⟩

/-- So are all cells of the data store that an operation works with. -/
theorem Sound.touched_mem (h : s.Sound) {p : Placement} (hp : p ∈ s.listing) {op : Operation Int}
    (hop : p.code = .operation op) {a : Int} (ha : op.Touches a) : 0 ≤ a ∧ a ≤ 255 := by
  rcases ha with ⟨hzero, hnegOne⟩ | hdata
  · simp only [zero, negOne] at hzero hnegOne
    omega
  · exact h.operand_mem hp hop a (Operation.mem_operands_of_data hdata)

/-- So is the target of a branch. -/
theorem Sound.target_mem (h : s.Sound) {p : Placement} (hp : p ∈ s.listing) {op : Operation Int}
    (hop : p.code = .operation op) {target : Int} (ht : op.target? = some target) :
    0 ≤ target ∧ target ≤ 255 := by
  have hoperand := h.operand_mem hp hop
  cases op with
  | jump t =>
    cases ht
    exact hoperand target (by simp [Operation.operands])
  | jumpVia a =>
    cases ht
    decide
  | branch cond a b t =>
    cases ht
    exact hoperand target (by simp [Operation.operands])
  | move a b => cases ht
  | arith op a b c => cases ht

/-- What is placed for a definition is a signed byte in the cell of a variable. -/
theorem Sound.define_mem (h : s.Sound) {p : Placement} (hp : p ∈ s.listing) {value a : Int}
    (hdef : p.code = .define value a) :
    (-128 ≤ value ∧ value ≤ 127) ∧ ∃ v ∈ s.symbols.variables, v.address = a := by
  rcases h.eq_or_realizes hp with rfl | ⟨clause, _, hreal⟩
  · cases hdef
  · rw [hdef] at hreal
    cases hreal with
    | define hname ha hvalue =>
      rcases SymbolTable.lookup?_cases ha with ⟨rfl, _⟩ | ⟨v, hv, _, haddress⟩
      · simp [nameError?] at hname
      · exact ⟨Byte.decode_mem _, v, hv, haddress⟩

end Session

end Subleq
