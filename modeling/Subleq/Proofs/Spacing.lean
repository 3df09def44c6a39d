import Mathlib
import Subleq.Proofs.Continuation

/-!
# Subleq.Proofs.Spacing — blanks, blank lines and comments

A source may be laid out anew (`Edit`): blank lines are put in, the blanks between the words of a line
are changed, and words are added where a comment may stand. What a line says depends on its words up to
the last operand (`Clause.ofLine_append`), and a session depends on the numbers of the lines only where
it keeps them. So the two compilations stay in step, each a copy of the other with the lines moved
(`Session.Moved`), and come to the same program (`compile_edited`).
-/

namespace Subleq

/-! ## Comments -/

/-- The operands are found among the first words. -/
theorem Clause.ofWords?_append {op : Opcode} {ws : List String} {clause : Clause}
    (h : ofWords? op ws = some clause) (more : List String) :
    ofWords? op (ws ++ more) = some clause := by
  -- no opcode looks at more than three words
  match ws with
  | [] => cases op <;> simp [ofWords?] at h
  | [_] => cases op <;> simp_all [ofWords?]
  | [_, _] => cases op <;> simp_all [ofWords?]
  | _ :: _ :: _ :: _ => cases op <;> simp_all [ofWords?]

/-- Other words may follow these on a line: the first one is no keyword, or it has all its operands. -/
def TakesComment : List String → Prop
  | [] => False
  | word :: operands => ∀ op ∈ Opcode.ofKeyword? word, op.arity ≤ operands.length

instance : DecidablePred TakesComment
  | [] => .isFalse id
  | word :: operands =>
    inferInstanceAs (Decidable (∀ op ∈ Opcode.ofKeyword? word, op.arity ≤ operands.length))

/-- A comment says nothing. -/
theorem Clause.ofLine_append {ws : List String} (h : TakesComment ws) (comment : List String) :
    ofLine (ws ++ comment) = ofLine ws := by
  cases ws with
  | nil => exact absurd h id
  | cons word words =>
    simp only [List.cons_append, ofLine]
    cases hop : Opcode.ofKeyword? word with
    | none => rfl
    | some op =>
      have hlength := h op hop
      cases hclause : ofWords? op words with
      | none =>
        have hfew := ofWords?_eq_none_iff.mp hclause
        omega
      | some clause => simp only [hclause, ofWords?_append hclause comment]

/-! ## Edits -/

/-- The new line has the words of the old one, whatever the blanks, and maybe a comment. -/
def Restyles (old new : List Char) : Prop :=
  ∃ ws comment, Text.Spaced ws old ∧ Text.Spaced (ws ++ comment) new ∧
    (comment ≠ [] → TakesComment (ws.map String.ofList))

theorem restyles_iff {old new : List Char} : Restyles old new ↔
    Text.words old <+: Text.words new ∧
      (Text.words new ≠ Text.words old → TakesComment ((Text.words old).map String.ofList)) := by
  constructor
  · rintro ⟨ws, comment, hold, hnew, hcomment⟩
    rw [hold.words_eq, hnew.words_eq]
    refine ⟨List.prefix_append _ _, fun hne => hcomment ?_⟩
    rintro rfl
    exact hne (List.append_nil ws)
  · rintro ⟨⟨comment, hnew⟩, hcomment⟩
    refine ⟨Text.words old, comment, Text.spaced_iff.mpr rfl, Text.spaced_iff.mpr hnew.symm, ?_⟩
    intro hne
    apply hcomment
    rw [← hnew]
    simpa using hne

instance (old new : List Char) : Decidable (Restyles old new) := decidable_of_iff _ restyles_iff.symm

/-- The changed line says the same. -/
theorem Restyles.ofLine_eq {old new : List Char} (h : Restyles old new) :
    Clause.ofLine ((Text.words new).map String.ofList) =
      Clause.ofLine ((Text.words old).map String.ofList) := by
  rcases h with ⟨ws, comment, hold, hnew, hcomment⟩
  rw [hold.words_eq, hnew.words_eq, List.map_append]
  cases comment with
  | nil => rw [List.map_nil, List.append_nil]
  | cons w ws' => exact Clause.ofLine_append (hcomment (by simp)) _

/-- A line is put into a source, or one of its lines is changed. -/
inductive Edit where
  | insert (line : List Char)
  | change (old new : List Char)
deriving Repr, DecidableEq

namespace Edit

/-- Blank lines may be inserted, and a line may be laid out in another way. -/
def Allowed : Edit → Prop
  | insert line => Text.Blank line
  | change old new => Restyles old new

instance : DecidablePred Allowed
  | insert line => List.decidableBAll (Text.isBlank · = true) line
  | change old new => inferInstanceAs (Decidable (Restyles old new))

/-- The lines that are edited. -/
def before : List Edit → List (List Char)
  | [] => []
  | insert _ :: es => before es
  | change old _ :: es => old :: before es

/-- The lines that the edits lead to. -/
def after : List Edit → List (List Char)
  | [] => []
  | insert line :: es => line :: after es
  | change _ new :: es => new :: after es

/-- The number of lines inserted before the old line that comes after `k` other old ones. -/
def insertedBefore : List Edit → Nat → Nat
  | [], _ => 0
  | insert _ :: es, k => insertedBefore es k + 1
  | change .. :: _, 0 => 0
  | change .. :: es, k + 1 => insertedBefore es k

/-- The new number of an old line; lines are numbered from 1. -/
def moveLine (es : List Edit) (line : Int) : Int := line + insertedBefore es (line - 1).toNat

/-- The edits lead from one source to another. -/
structure Lead (es : List Edit) (source source' : String) : Prop where
  before : Text.HasLines source.toList (before es)
  after : Text.HasLines source'.toList (after es)
  allowed : ∀ e ∈ es, e.Allowed

end Edit

/-! ## Moving lines -/

def Diagnostic.moveLine (f : Int → Int) (d : Diagnostic) : Diagnostic := { d with line := f d.line }

def Variable.moveLine (f : Int → Int) (v : Variable) : Variable := { v with line := f v.line }

namespace SymbolTable

open LineWork

variable {f : Int → Int} {t : SymbolTable}

/-- The same variables, but with the lines of their definitions moved. -/
def moveLines (f : Int → Int) (t : SymbolTable) : SymbolTable :=
  { t with «variables» := t.variables.map (Variable.moveLine f) }

theorem find?_moveLines (f : Int → Int) (t : SymbolTable) (name : String) :
    (t.moveLines f).find? name = (t.find? name).map (Variable.moveLine f) := by
  unfold find? moveLines
  rw [List.find?_map]
  rfl

theorem lookup?_moveLines (f : Int → Int) (t : SymbolTable) (name : String) :
    (t.moveLines f).lookup? name = t.lookup? name := by
  unfold lookup?
  rw [find?_moveLines, Option.map_map]
  rfl

theorem address_moveLines (f : Int → Int) (t : SymbolTable) : (t.moveLines f).address = t.address := by
  funext token
  unfold address
  rw [lookup?_moveLines]

theorem value_moveLines (f : Int → Int) (t : SymbolTable) : (t.moveLines f).value = t.value := by
  funext token
  unfold value
  rw [address_moveLines]

theorem replace_moveLine (f : Int → Int) (v : Variable) (vs : List Variable) :
    replace (v.moveLine f) (vs.map (Variable.moveLine f)) =
      (replace v vs).map (Variable.moveLine f) := by
  unfold replace
  rw [List.map_map, List.map_map]
  apply List.map_congr_left
  intro w _
  simp only [Function.comp]
  by_cases hname : w.name = v.name
  · rw [if_pos hname, if_pos (show (w.moveLine f).name = (v.moveLine f).name from hname)]
  · rw [if_neg hname, if_neg (show (w.moveLine f).name ≠ (v.moveLine f).name from hname)]

theorem size_moveLines (f : Int → Int) (t : SymbolTable) : (t.moveLines f).size = t.size :=
  List.length_map _

/-- A definition on a line that is moved. -/
theorem define_moveLines (f : Int → Int) (t : SymbolTable) (name : String) (value line : Int) :
    (t.moveLines f).define name value (f line) =
      (t.define name value line).map fun r => (r.1.moveLine f, r.2.moveLines f) := by
  unfold define
  rw [find?_moveLines]
  cases nameError? name with
  | some cause => rfl
  | none =>
    cases t.find? name with
    | some old =>
      -- the name keeps its cell, and its entry is replaced in both tables
      have hreplace := replace_moveLine f { old with value, line } t.variables
      simp only [Option.map_some, Except.map, moveLines]
      rw [← hreplace]
      rfl
    | none =>
      simp only [Option.map_none, size_moveLines]
      by_cases hfull : t.capacity ≤ t.size
      · rw [if_pos hfull, if_pos (show (t.moveLines f).capacity ≤ t.size from hfull)]
        rfl
      · rw [if_neg hfull, if_neg (show ¬(t.moveLines f).capacity ≤ t.size from hfull)]
        simp only [Except.map, moveLines, heapPointer, size, List.map_append, List.length_map]
        rfl

end SymbolTable

namespace LineWork

theorem outcome_map {α β : Type} (g : α → β) (x : LineWork α) :
    (g <$> x).outcome = (x.outcome.1.map g, x.outcome.2) := by
  rw [← bind_pure_comp, outcome, run_bind]
  change _ = ((x.run []).1.map g, (x.run []).2)
  cases x.run [] with
  | mk r ws => cases r <;> rfl

end LineWork

namespace Session

open LineWork

variable {f : Int → Int} {s s' : Session}

/-- The second session has come to the same as the first one, but with the lines moved. -/
structure Moved (f : Int → Int) (s s' : Session) : Prop where
  symbols : s'.symbols = s.symbols.moveLines f
  pc : s'.pc = s.pc
  closed : s'.definitionsClosed = s.definitionsClosed
  program : s'.program = s.program
  diagnostics : s'.diagnostics = s.diagnostics.map (Diagnostic.moveLine f)

theorem Moved.note (h : s.Moved f s') (level level' : Log.Level)
    (message message' : Except Text.TooManyDigits String) :
    (s.note level message).Moved f (s'.note level' message') :=
  ⟨h.symbols, h.pc, h.closed, h.program, h.diagnostics⟩

theorem Moved.report (h : s.Moved f s') (line : Int) (cause : Issue) :
    (s.report line cause).Moved f (s'.report (f line) cause) := by
  constructor
  case diagnostics =>
    change s'.diagnostics ++ _ = (s.diagnostics ++ _).map _
    rw [h.diagnostics, List.map_append]
    rfl
  case symbols => exact h.symbols
  case pc => exact h.pc
  case closed => exact h.closed
  case program => exact h.program

theorem Moved.warnings (h : s.Moved f s') (line : Int) (ws : List Issue) :
    (ws.foldl (Session.report line) s).Moved f (ws.foldl (Session.report (f line)) s') := by
  induction ws generalizing s s' with
  | nil => exact h
  | cons w ws ih => exact ih (h.report line w)

theorem Moved.place (h : s.Moved f s') (code : Code) (symbols : SymbolTable) (text text' : String) :
    (({ s with symbols } : Session).place code text).Moved f
      (({ s' with symbols := symbols.moveLines f } : Session).place code text') := by
  constructor
  case symbols => rfl
  case pc =>
    change s'.pc + _ = s.pc + _
    rw [h.pc]
  case closed => exact h.closed
  case program =>
    change s'.program.insertCells s'.pc (code.cells s'.pc) = s.program.insertCells s.pc (code.cells s.pc)
    rw [h.program, h.pc]
  case diagnostics => exact h.diagnostics

theorem Moved.close (h : s.Moved f s') (closes : Bool) :
    ({ s with definitionsClosed := s.definitionsClosed || closes } : Session).Moved f
      { s' with definitionsClosed := s'.definitionsClosed || closes } := by
  refine ⟨h.symbols, h.pc, ?_, h.program, h.diagnostics⟩
  change (s'.definitionsClosed || closes) = (s.definitionsClosed || closes)
  rw [h.closed]

/-! ## Compiling a line -/

theorem Moved.requireSpace (h : s.Moved f s') (cells : Nat) :
    s'.requireSpace cells = s.requireSpace cells := by
  unfold Session.requireSpace lackOfSpace?
  rw [h.pc]

theorem Moved.defining (h : s.Moved f s') (name : String) (line value : Int) :
    s'.defining name (f line) value =
      (fun r => (r.1, r.2.moveLines f)) <$> s.defining name line value := by
  unfold Session.defining
  rw [h.requireSpace, h.symbols, SymbolTable.define_moveLines]
  cases nameError? name with
  | some cause => rfl
  | none =>
    simp only [map_bind]
    congr 1
    funext _
    cases s.symbols.define name value line with
    | error cause => rfl
    | ok r => rfl

theorem Moved.codeFor (h : s.Moved f s') {st st' : Statement} (hclause : st'.clause = st.clause)
    (hline : st'.line = f st.line) :
    s'.codeFor st' = (fun r => (r.1, r.2.moveLines f)) <$> s.codeFor st := by
  cases hst : st.clause with
  | define name token =>
    rw [codeFor_define hst, codeFor_define (hclause.trans hst), hline, h.closed, h.symbols,
      SymbolTable.value_moveLines]
    -- a late definition is warned of first, in the one and in the other
    cases s.definitionsClosed with
    | true => simp only [if_true, map_bind, h.defining]
    | false => simp only [Bool.false_eq_true, if_false, map_bind, h.defining]
  | operation op =>
    rw [codeFor_operation hst, codeFor_operation (hclause.trans hst), h.symbols,
      SymbolTable.address_moveLines, map_bind]
    simp only [h.requireSpace, map_bind, map_pure]

theorem Moved.compileStatement (h : s.Moved f s') {st st' : Statement}
    (hclause : st'.clause = st.clause) (hline : st'.line = f st.line) :
    (s.compileStatement st).1.Moved f (s'.compileStatement st').1 ∧
      (s'.compileStatement st').2 = (s.compileStatement st).2 := by
  unfold Session.compileStatement
  rw [h.codeFor hclause hline, outcome_map]
  cases (s.codeFor st).outcome with
  | mk result ws =>
    have hwarned := h.warnings st.line ws
    rw [← hline] at hwarned
    cases result with
    | ok r =>
      dsimp only [Except.map]
      exact ⟨(hwarned.place r.1 r.2 st.text st'.text).note _ _ _ _, rfl⟩
    | error obstacle =>
      cases obstacle with
      | issue cause =>
        have hreported := hwarned.report st.line cause
        rw [← hline] at hreported
        dsimp only [Except.map]
        exact ⟨hreported, rfl⟩
      | tooManyDigits cause =>
        dsimp only [Except.map]
        exact ⟨hwarned, rfl⟩

/-- A line and the one that it is changed to come to the same. -/
theorem Moved.compileLine (h : s.Moved f s') {old new : List Char} (hr : Restyles old new)
    (line : Int) :
    (s.compileLine (String.ofList old) line).1.Moved f
        (s'.compileLine (String.ofList new) (f line)).1 ∧
      (s'.compileLine (String.ofList new) (f line)).2 = (s.compileLine (String.ofList old) line).2 := by
  unfold Session.compileLine
  -- the lines say the same, and only their numbers differ
  simp only [Statement.parse_eq, String.toList_ofList, hr.ofLine_eq]
  cases Clause.ofLine ((Text.words old).map String.ofList) with
  | error cause => exact ⟨h.report line (.statement cause), rfl⟩
  | ok said =>
    cases said with
    | none => exact ⟨h, rfl⟩
    | some clause => exact (h.close _).compileStatement rfl rfl

theorem compileLine_of_blank (s : Session) {bs : List Char} (h : Text.Blank bs) (line : Int) :
    s.compileLine (String.ofList bs) line = (s, .blank) := by
  unfold Session.compileLine
  rw [Statement.parse_eq, String.toList_ofList, Text.words_of_blank h]
  rfl

/-! ## Compiling a program -/

/-- Whatever the edits do, the two compilations stay in step. The lines that are left have the numbers
from `n` on in the one and from `n'` on in the other. -/
theorem Moved.compileLines (h : s.Moved f s') {es : List Edit} (hes : ∀ e ∈ es, e.Allowed)
    {n n' : Int} (hf : ∀ k : Nat, f (n + k) = n' + k + Edit.insertedBefore es k) :
    (s.compileLines (Text.numberFrom n (Edit.before es))).1.Moved f
        (s'.compileLines (Text.numberFrom n' (Edit.after es))).1 ∧
      (s'.compileLines (Text.numberFrom n' (Edit.after es))).2 =
        (s.compileLines (Text.numberFrom n (Edit.before es))).2 := by
  induction es generalizing s s' n n' with
  | nil => exact ⟨h, rfl⟩
  | cons e es ih =>
    have hallowed := hes e (by simp)
    have hrest : ∀ e ∈ es, e.Allowed := fun e he => hes e (List.mem_cons_of_mem _ he)
    cases e with
    | insert line =>
      -- the second compilation passes the line and is one line ahead
      simp only [Edit.before, Edit.after, Text.numberFrom, Session.compileLines,
        s'.compileLine_of_blank hallowed]
      apply ih h hrest
      intro k
      rw [hf k, Edit.insertedBefore]
      push_cast
      omega
    | change old new =>
      have hfirst : f n = n' := by
        have h0 := hf 0
        rw [Edit.insertedBefore] at h0
        simpa using h0
      have hnext : ∀ k : Nat, f (n + 1 + k) = n' + 1 + k + Edit.insertedBefore es k := by
        intro k
        have hk := hf (k + 1)
        rw [Edit.insertedBefore] at hk
        push_cast at hk
        rw [show n + 1 + (k : Int) = n + (k + 1) by omega, hk]
        omega
      -- both compilations come to the same on this line, and both stop here or go on
      have hline := h.compileLine hallowed n
      rw [hfirst] at hline
      simp only [Edit.before, Edit.after, Text.numberFrom, Session.compileLines]
      cases hold : s.compileLine (String.ofList old) n with
      | mk s₁ outcome =>
        cases hnew : s'.compileLine (String.ofList new) n' with
        | mk s₁' outcome' =>
          rw [hold, hnew] at hline
          rcases hline with ⟨hmoved, rfl⟩
          cases outcome' with
          | raised cause => exact ⟨hmoved, rfl⟩
          | blank => exact ih hmoved hrest hnext
          | emitted code => exact ih hmoved hrest hnext
          | rejected cause => exact ih hmoved hrest hnext

/-- An empty line at the end of a text need not be compiled. -/
theorem compileLines_of_hasLines (s : Session) {text : String} {ls : List (List Char)}
    (h : Text.HasLines text.toList ls) :
    s.compileLines (Text.numberedLines text) = s.compileLines (Text.numberFrom 1 ls) := by
  rw [Text.numberedLines_eq, h.eq_lines]
  split
  · rw [Text.numberFrom_append, compileLines_append]
    cases s.compileLines (Text.numberFrom 1 (Text.lines text.toList)) with
    | mk s₁ raised =>
      cases raised with
      | some cause => rfl
      | none =>
        have hblank : Text.Blank [] := nofun
        simp only [Text.numberFrom, Session.compileLines, s₁.compileLine_of_blank hblank]
  · rfl

variable {heapStart capacity : Int}

/-- A source that compiles does so however it is laid out: with other blanks between its words, with
blank lines put in, and with comments added where they may stand. It comes to the same program of the
same length, and to the same variables with the same cells and values in the same order; the same is
reported, about each line by its new number. -/
theorem compile_edited {source source' : String} {es : List Edit} {s : Session}
    (hes : Edit.Lead es source source')
    (h : compile { heapStart, capacity } source = (s, none)) :
    ∃ s', compile { heapStart, capacity } source' = (s', none) ∧
      s'.program = s.program ∧ s'.pc = s.pc ∧
      s'.symbols.variables.map (fun v => (v.name, v.address, v.value)) =
        s.symbols.variables.map (fun v => (v.name, v.address, v.value)) ∧
      s'.diagnostics = s.diagnostics.map fun d => ⟨d.issue, Edit.moveLine es d.line⟩ := by
  rcases exists_compileLines h with ⟨s₁, message, hlines, rfl⟩
  -- nothing has a line yet when compiling begins
  have hstart : (start { heapStart, capacity }).Moved (Edit.moveLine es)
      (start { heapStart, capacity }) := ⟨rfl, rfl, rfl, rfl, rfl⟩
  have hnumbers : ∀ k : Nat, Edit.moveLine es (1 + k) = 1 + k + Edit.insertedBefore es k := by
    intro k
    have hk : (1 + (k : Int) - 1).toNat = k := by omega
    rw [Edit.moveLine, hk]
  have hmoved := hstart.compileLines hes.allowed hnumbers
  rw [← compileLines_of_hasLines _ hes.before, ← compileLines_of_hasLines _ hes.after, hlines] at hmoved
  cases hlines' : (start { heapStart, capacity }).compileLines (Text.numberedLines source') with
  | mk s₁' raised =>
    rw [hlines'] at hmoved
    rcases hmoved with ⟨hmoved, rfl⟩
    rcases compile_eq_some_note hlines' with ⟨message', hcompile⟩
    refine ⟨_, hcompile, hmoved.program, hmoved.pc, ?_, hmoved.diagnostics⟩
    change s₁'.symbols.variables.map _ = s₁.symbols.variables.map _
    rw [hmoved.symbols]
    unfold SymbolTable.moveLines
    rw [List.map_map]
    rfl

/-- A source with four lines, two of which are no statements. -/
def plainSource : String := "DEF a 5\r\nHOP a\nADD a\nMOV a $5 "

/-- The same with blank lines, other blanks and comments. -/
def commentedSource : String := "\n DEF  a\t5 five\n\u2003\nHOP a b\x0bADD\ta \nMOV a $5 again\n"

/-- How the one comes from the other. -/
def comments : List Edit :=
  [.insert [], .change "DEF a 5".toList " DEF  a\t5 five".toList, .insert ['\u2003'],
    .change "HOP a".toList "HOP a b".toList, .change "ADD a".toList "ADD\ta ".toList,
    .change "MOV a $5 ".toList "MOV a $5 again".toList, .insert []]

theorem compile_edited_comments :
    Edit.Lead comments plainSource commentedSource ∧ (compile {} plainSource).2 = none ∧
    ∃ s', compile {} commentedSource = (s', none) ∧
      s'.program = (compile {} plainSource).1.program ∧
      s'.diagnostics.map (·.line) = [4, 5, 6] := by
  have hlead : Edit.Lead comments plainSource commentedSource :=
    ⟨by decide +kernel, by decide +kernel, by decide +kernel⟩
  have hraised : (compile {} plainSource).2 = none := by decide +kernel
  have hlines : ((compile {} plainSource).1.diagnostics.map fun d =>
      Edit.moveLine comments d.line) = [4, 5, 6] := by decide +kernel
  rcases compile_edited hlead (compile_eq hraised) with ⟨s', hs', hprogram, -, -, hdiagnostics⟩
  refine ⟨hlead, hraised, s', hs', hprogram, ?_⟩
  rw [hdiagnostics, List.map_map, ← hlines]
  rfl

end Session

end Subleq
