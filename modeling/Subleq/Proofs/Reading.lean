import Mathlib
import Subleq.Proofs.Continuation

/-!
# Subleq.Proofs.Reading — what is parsed is what is compiled

The lines of a source text are gone through in two ways. One only sorts them into statements and
errors; the other compiles each line as it comes to it, in a session that the lines before it have
changed, and reports what is wrong with a line among the diagnostics. Both ways are followed here
line by line, in step (`InStep`, `inStep_compileLine`, `inStep_compileLines`). As no two lines have
the same number, what is said about a line can be told from what is said about others, and is the
same on both sides (`parseAll_compile`).
-/

namespace Subleq

open Text

theorem Text.words_eq_nil_iff {cs : List Char} : words cs = [] ↔ Blank cs := by
  constructor
  · intro h
    cases spaced_iff.mpr h with
    | blank hbs => exact hbs
  · exact words_of_blank

/-- A line that is a statement, or is none but should be, has words. -/
theorem Statement.words_ne_nil {text : String} {line : Int} (h : parse text line ≠ .ok none) :
    words text.toList ≠ [] := by
  intro hwords
  apply h
  rw [parse_eq, hwords]
  rfl

/-! ## Line by line -/

/-- Rows of lines with what both ways make of them: statements and errors on the one side,
diagnostics and entries of the listing on the other. A line that is no statement is an error on the
one side and a diagnostic on the other. A statement is among the statements in any case. It gives rise
to warnings at most and has an entry, or else an error comes after the warnings. -/
inductive InStep : List (Int × String) → List Statement → List (Int × StatementError) →
    List Diagnostic → List String → Prop where
  | nil : InStep [] [] [] [] []
  | blank {line : Int} {text : String} {lines : List (Int × String)} {sts : List Statement}
      {errs : List (Int × StatementError)} {ds : List Diagnostic} {entries : List String}
      (hparse : Statement.parse text line = .ok none) (rest : InStep lines sts errs ds entries) :
      InStep ((line, text) :: lines) sts errs ds entries
  | error {line : Int} {text : String} {cause : StatementError} {lines : List (Int × String)}
      {sts : List Statement} {errs : List (Int × StatementError)} {ds : List Diagnostic}
      {entries : List String} (hparse : Statement.parse text line = .error cause)
      (rest : InStep lines sts errs ds entries) :
      InStep ((line, text) :: lines) sts ((line, cause) :: errs) (⟨.statement cause, line⟩ :: ds)
        entries
  | rejected {line : Int} {text : String} {st : Statement} {warnings : List Diagnostic}
      {cause : Issue} {lines : List (Int × String)} {sts : List Statement}
      {errs : List (Int × StatementError)} {ds : List Diagnostic} {entries : List String}
      (hparse : Statement.parse text line = .ok (some st))
      (hwarnings : Session.Warnings line warnings)
      (herror : (⟨cause, line⟩ : Diagnostic).isError = true)
      (rest : InStep lines sts errs ds entries) :
      InStep ((line, text) :: lines) (st :: sts) errs (warnings ++ [⟨cause, line⟩] ++ ds) entries
  | emitted {line : Int} {text : String} {st : Statement} {warnings : List Diagnostic}
      {lines : List (Int × String)} {sts : List Statement} {errs : List (Int × StatementError)}
      {ds : List Diagnostic} {entries : List String}
      (hparse : Statement.parse text line = .ok (some st))
      (hwarnings : Session.Warnings line warnings) (rest : InStep lines sts errs ds entries) :
      InStep ((line, text) :: lines) (st :: sts) errs (warnings ++ ds) (st.text :: entries)

namespace InStep

variable {lines : List (Int × String)} {sts : List Statement} {errs : List (Int × StatementError)}
  {ds : List Diagnostic} {entries : List String}

/-- Each statement is that of a line, and has its number. -/
theorem exists_parse (h : InStep lines sts errs ds entries) :
    ∀ st ∈ sts, ∃ text, (st.line, text) ∈ lines ∧
      Statement.parse text st.line = .ok (some st) := by
  have hlater : ∀ {first : Int × String} {lines : List (Int × String)} {st : Statement},
      (∃ text, (st.line, text) ∈ lines ∧ Statement.parse text st.line = .ok (some st)) →
      ∃ text, (st.line, text) ∈ first :: lines ∧ Statement.parse text st.line = .ok (some st) := by
    rintro first lines st ⟨text, hmem, hst⟩
    exact ⟨text, List.mem_cons_of_mem first hmem, hst⟩
  have hhead : ∀ {line : Int} {text : String} {lines : List (Int × String)} {st : Statement},
      Statement.parse text line = .ok (some st) →
      ∃ text', (st.line, text') ∈ (line, text) :: lines ∧
        Statement.parse text' st.line = .ok (some st) := by
    intro line text lines st hparse
    obtain ⟨-, rfl, -⟩ := Statement.parse_eq_some hparse
    exact ⟨text, List.mem_cons_self .., hparse⟩
  induction h with
  | nil => simp
  | blank hparse rest ih => exact fun st hst => hlater (ih st hst)
  | error hparse rest ih => exact fun st hst => hlater (ih st hst)
  | rejected hparse hwarnings herror rest ih =>
    exact List.forall_mem_cons.mpr ⟨hhead hparse, fun st hst => hlater (ih st hst)⟩
  | emitted hparse hwarnings rest ih =>
    exact List.forall_mem_cons.mpr ⟨hhead hparse, fun st hst => hlater (ih st hst)⟩

/-- Each diagnostic is about a line. -/
theorem line_mem (h : InStep lines sts errs ds entries) : ∀ d ∈ ds, d.line ∈ lines.map (·.1) := by
  induction h with
  | nil => simp
  | blank hparse rest ih => exact fun d hd => List.mem_cons_of_mem _ (ih d hd)
  | error hparse rest ih =>
    intro d hd
    rcases List.mem_cons.mp hd with rfl | hd
    · exact List.mem_cons_self ..
    · exact List.mem_cons_of_mem _ (ih d hd)
  | rejected hparse hwarnings herror rest ih =>
    intro d hd
    rcases List.mem_append.mp hd with hd | hd
    · rw [hwarnings.line_eq_concat _ d hd]
      exact List.mem_cons_self ..
    · exact List.mem_cons_of_mem _ (ih d hd)
  | emitted hparse hwarnings rest ih =>
    intro d hd
    rcases List.mem_append.mp hd with hd | hd
    · rw [hwarnings.line_eq d hd]
      exact List.mem_cons_self ..
    · exact List.mem_cons_of_mem _ (ih d hd)

/-- Each line that is not blank is a statement or an error, and no line is both. -/
theorem perm (h : InStep lines sts errs ds entries) :
    (sts.map (·.line) ++ errs.map (·.1)).Perm
      ((lines.filter fun line => words line.2.toList ≠ []).map (·.1)) := by
  induction h with
  | nil => exact .nil
  | blank hparse rest ih =>
    rw [List.filter_cons_of_neg (by simp [Statement.words_eq_nil_of_parse hparse])]
    exact ih
  | error hparse rest ih =>
    have hwords := Statement.words_ne_nil (by rw [hparse]; nofun)
    rw [List.filter_cons_of_pos (by exact decide_eq_true hwords), List.map_cons, List.map_cons]
    exact List.perm_middle.trans (ih.cons _)
  | rejected hparse _ _ rest ih | emitted hparse _ rest ih =>
    obtain ⟨-, rfl, -⟩ := Statement.parse_eq_some hparse
    have hwords := Statement.words_ne_nil (by rw [hparse]; nofun)
    rw [List.filter_cons_of_pos (by exact decide_eq_true hwords), List.map_cons, List.map_cons]
    exact ih.cons _

/-- The lines after a line have other numbers, and so has what is said about them. -/
theorem line_ne {line : Int} (h : InStep lines sts errs ds entries)
    (hlines : ∀ l ∈ lines, line < l.1) :
    (∀ st ∈ sts, st.line ≠ line) ∧ ∀ d ∈ ds, d.line ≠ line := by
  constructor
  · intro st hst
    obtain ⟨text, hmem, -⟩ := h.exists_parse st hst
    exact (hlines _ hmem).ne'
  · intro d hd
    obtain ⟨l, hl, heq⟩ := List.mem_map.mp (h.line_mem d hd)
    rw [← heq]
    exact (hlines l hl).ne'

end InStep

/-! ## Telling lines apart -/

/-- The diagnostic is about parsing, and about a line of which there is no statement. -/
def Diagnostic.IsUnstated (sts : List Statement) (d : Diagnostic) : Prop :=
  d.issue.kind = .parse ∧ ∀ st ∈ sts, st.line ≠ d.line

instance (sts : List Statement) (d : Diagnostic) : Decidable (d.IsUnstated sts) :=
  inferInstanceAs (Decidable (_ ∧ _))

/-- None of the errors is about the line of the statement. -/
def Statement.IsClear (errors : List Diagnostic) (st : Statement) : Prop :=
  ∀ d ∈ errors, d.line ≠ st.line

instance (errors : List Diagnostic) (st : Statement) : Decidable (st.IsClear errors) :=
  inferInstanceAs (Decidable (∀ d ∈ errors, d.line ≠ st.line))

section Filter

variable {line : Int} {st : Statement} {new ds : List Diagnostic} {sts : List Statement}

/-- A statement takes the diagnostics of its line out, and leaves those of other lines. -/
theorem filter_isUnstated_cons (hst : st.line = line) (hnew : ∀ d ∈ new, d.line = line)
    (hds : ∀ d ∈ ds, d.line ≠ line) :
    (new ++ ds).filter (fun d => d.IsUnstated (st :: sts)) =
      ds.filter fun d => d.IsUnstated sts := by
  rw [List.filter_append, List.filter_eq_nil_iff.mpr, List.nil_append]
  · apply List.filter_congr
    intro d hd
    have hne : st.line ≠ d.line := by
      rw [hst]
      exact (hds d hd).symm
    simp only [Diagnostic.IsUnstated, List.forall_mem_cons]
    exact decide_eq_decide.mpr (and_congr_right fun _ => and_iff_right hne)
  · intro d hd
    simp [Diagnostic.IsUnstated, hst, hnew d hd]

/-- The diagnostics of a line do not matter to the statements of other lines. -/
theorem filter_isClear_append (hnew : ∀ d ∈ new, d.line = line) (hsts : ∀ st ∈ sts, st.line ≠ line) :
    sts.filter (fun st => st.IsClear ((new ++ ds).filter (·.isError))) =
      sts.filter fun st => st.IsClear (ds.filter (·.isError)) := by
  apply List.filter_congr
  intro st hst
  have hne : ∀ d ∈ new.filter (·.isError), d.line ≠ st.line := by
    intro d hd
    rw [hnew d (List.mem_of_mem_filter hd)]
    exact (hsts st hst).symm
  simp only [Statement.IsClear, List.filter_append, List.forall_mem_append]
  exact decide_eq_decide.mpr (and_iff_right hne)

end Filter

namespace InStep

variable {lines : List (Int × String)} {sts : List Statement} {errs : List (Int × StatementError)}
  {ds : List Diagnostic} {entries : List String}

/-- The errors on the one side are the diagnostics on the other that are about parsing, and about
lines without a statement. -/
theorem errors_eq (h : InStep lines sts errs ds entries) (hlines : lines.Pairwise (·.1 < ·.1)) :
    errs.map (fun e => (⟨.statement e.2, e.1⟩ : Diagnostic)) =
      ds.filter fun d => d.IsUnstated sts := by
  induction h with
  | nil => rfl
  | blank hparse rest ih => exact ih (List.pairwise_cons.mp hlines).2
  | error hparse rest ih =>
    obtain ⟨hfirst, hrest⟩ := List.pairwise_cons.mp hlines
    have hothers := (rest.line_ne hfirst).1
    rw [List.map_cons, ih hrest, List.filter_cons_of_pos]
    exact decide_eq_true ⟨rfl, hothers⟩
  | rejected hparse hwarnings herror rest ih =>
    obtain ⟨hfirst, hrest⟩ := List.pairwise_cons.mp hlines
    obtain ⟨-, hline, -⟩ := Statement.parse_eq_some hparse
    rw [filter_isUnstated_cons hline (hwarnings.line_eq_concat _) (rest.line_ne hfirst).2]
    exact ih hrest
  | emitted hparse hwarnings rest ih =>
    obtain ⟨hfirst, hrest⟩ := List.pairwise_cons.mp hlines
    obtain ⟨-, hline, -⟩ := Statement.parse_eq_some hparse
    rw [filter_isUnstated_cons hline hwarnings.line_eq (rest.line_ne hfirst).2]
    exact ih hrest

/-- The entries on the one side are the texts of the statements on the other that are on lines
without an error among the diagnostics. -/
theorem entries_eq (h : InStep lines sts errs ds entries) (hlines : lines.Pairwise (·.1 < ·.1)) :
    entries = (sts.filter fun st => st.IsClear (ds.filter (·.isError))).map (·.text) := by
  induction h with
  | nil => rfl
  | blank hparse rest ih => exact ih (List.pairwise_cons.mp hlines).2
  | error hparse rest ih =>
    obtain ⟨hfirst, hrest⟩ := List.pairwise_cons.mp hlines
    rw [← List.singleton_append,
      filter_isClear_append (List.forall_mem_singleton.mpr rfl) (rest.line_ne hfirst).1]
    exact ih hrest
  | @rejected line text st warnings cause lines sts errs ds entries hparse hwarnings herror rest ih =>
    obtain ⟨hfirst, hrest⟩ := List.pairwise_cons.mp hlines
    obtain ⟨-, hline, -⟩ := Statement.parse_eq_some hparse
    rw [List.filter_cons_of_neg,
      filter_isClear_append (hwarnings.line_eq_concat _) (rest.line_ne hfirst).1]
    · exact ih hrest
    · rw [decide_eq_true_eq]
      intro hclear
      exact hclear ⟨cause, line⟩ (List.mem_filter.mpr ⟨by simp, herror⟩) hline.symm
  | emitted hparse hwarnings rest ih =>
    obtain ⟨hfirst, hrest⟩ := List.pairwise_cons.mp hlines
    obtain ⟨-, hline, -⟩ := Statement.parse_eq_some hparse
    obtain ⟨hsts, hds⟩ := rest.line_ne hfirst
    rw [List.filter_cons_of_pos, filter_isClear_append hwarnings.line_eq hsts,
      List.map_cons, ← ih hrest]
    -- what there is for the line itself are warnings
    rw [List.filter_append, hwarnings.filter_isError, List.nil_append, decide_eq_true_eq]
    intro d hd
    rw [hline]
    exact hds d (List.mem_of_mem_filter hd)

end InStep

/-! ## Both ways -/

namespace Session

variable {s s' : Session}

/-- The lines of a source text that are not blank. -/
def inhabited (source : String) : List (Int × String) :=
  (Text.numberedLines source).filter fun line => Text.words line.2.toList ≠ []

/-- A line that does not end the compilation is parsed and compiled in step. -/
theorem inStep_compileLine (s : Session) (text : String) (line : Int)
    (hraised : ∀ cause, (s.compileLine text line).2 ≠ .raised cause) :
    ∃ new ps, (s.compileLine text line).1.diagnostics = s.diagnostics ++ new ∧
      (s.compileLine text line).1.listing = s.listing ++ ps ∧
      ∀ {lines : List (Int × String)} {ds : List Diagnostic} {entries : List String},
        InStep lines (Statement.parseLines lines).1 (Statement.parseLines lines).2 ds entries →
        InStep ((line, text) :: lines) (Statement.parseLines ((line, text) :: lines)).1
          (Statement.parseLines ((line, text) :: lines)).2 (new ++ ds)
          (ps.map (·.source) ++ entries) := by
  cases hparse : Statement.parse text line with
  | error cause =>
    have hline : s.compileLine text line =
        (s.report line (.statement cause), .rejected (.statement cause)) := by
      unfold compileLine
      rw [hparse]
    refine ⟨[⟨.statement cause, line⟩], [], ?_, ?_, fun rest => ?_⟩
    · rw [hline]
      rfl
    · rw [hline, (s.reported_report line _).listing, List.append_nil]
    · simp only [Statement.parseLines, hparse]
      exact .error hparse rest
  | ok parsed =>
    cases parsed with
    | none =>
      have hline : s.compileLine text line = (s, .blank) := by
        unfold compileLine
        rw [hparse]
      refine ⟨[], [], by simp [hline], by simp [hline], fun rest => ?_⟩
      simp only [Statement.parseLines, hparse]
      exact .blank hparse rest
    | some st =>
      obtain ⟨-, hline, htext⟩ := Statement.parse_eq_some hparse
      -- what became of the statement shows in the effect of its line
      obtain ⟨effect, heffect⟩ := s.exists_describes text line
      cases effect with
      | blank => exact absurd heffect.2.1 (Statement.words_ne_nil (by rw [hparse]; nofun))
      | raised => exact absurd heffect.1.choose_spec (hraised _)
      | rejected =>
        obtain ⟨-, hrejects⟩ := heffect
        obtain ⟨warnings, cause, hdiagnostics, hwarnings, herror⟩ := hrejects.diagnostics
        refine ⟨warnings ++ [⟨cause, line⟩], [], ?_, ?_, fun rest => ?_⟩
        · rw [hdiagnostics, List.append_assoc]
        · rw [hrejects.listing, List.append_nil]
        · simp only [Statement.parseLines, hparse]
          exact .rejected hparse hwarnings herror rest
      | emitted =>
        obtain ⟨-, st', code, hemits⟩ := heffect
        obtain ⟨warnings, hdiagnostics, hwarnings⟩ := hemits.diagnostics
        refine ⟨warnings, _, hdiagnostics, hemits.listing, fun rest => ?_⟩
        simp only [Statement.parseLines, hparse, List.map_singleton, ← htext]
        exact .emitted hparse hwarnings rest

/-- So are all lines, if none of them ends the compilation. -/
theorem inStep_compileLines {lines : List (Int × String)}
    (h : s.compileLines lines = (s', none)) : ∃ ds ps,
      s'.diagnostics = s.diagnostics ++ ds ∧ s'.listing = s.listing ++ ps ∧
      InStep lines (Statement.parseLines lines).1 (Statement.parseLines lines).2 ds
        (ps.map (·.source)) := by
  induction lines generalizing s with
  | nil =>
    cases h
    exact ⟨[], [], by simp, by simp, .nil⟩
  | cons first lines ih =>
    obtain ⟨line, text⟩ := first
    unfold compileLines at h
    split at h
    · cases h
    · next s₁ outcome hraised hline =>
      have hfirst := inStep_compileLine s text line fun cause heq => by
        rw [hline] at heq
        exact hraised cause heq
      rw [hline] at hfirst
      obtain ⟨new, qs, hdiagnostics, hlisting, hstep⟩ := hfirst
      obtain ⟨ds, ps, hdiagnostics', hlisting', hrest⟩ := ih h
      refine ⟨new ++ ds, qs ++ ps, ?_, ?_, ?_⟩
      · rw [hdiagnostics', hdiagnostics, List.append_assoc]
      · rw [hlisting', hlisting, List.append_assoc]
      · rw [List.map_append]
        exact hstep hrest

/-- A whole source text is parsed and compiled in step. -/
theorem inStep_compile {symbols : SymbolTable} {source : String}
    (h : compile symbols source = (s, none)) : ∃ ps, s.listing = preamble :: ps ∧
      InStep (numberedLines source) (Statement.parseAll source).1 (Statement.parseAll source).2
        s.diagnostics (ps.map (·.source)) := by
  obtain ⟨s₁, message, hlines, rfl⟩ := exists_compileLines h
  obtain ⟨ds, ps, hdiagnostics, hlisting, hstep⟩ := inStep_compileLines hlines
  have hds : s₁.diagnostics = ds := hdiagnostics
  refine ⟨ps, hlisting, ?_⟩
  show InStep _ _ _ s₁.diagnostics _
  rw [hds]
  exact hstep

/-! ## The same statements -/

/-- What a source text is sorted into, and what it is compiled to, are about the same statements. -/
structure SameReading (source : String) (sts : List Statement)
    (errs : List (Int × StatementError)) (s : Session) : Prop where
  /-- The number of a line that is not blank occurs once, among the statements or the errors. -/
  once : ∀ n text, (n, text) ∈ numberedLines source → ¬Blank text.toList →
    (sts.map (·.line)).count n + (errs.map (·.1)).count n = 1
  /-- No other number occurs. -/
  only : ∀ n, n ∈ sts.map (·.line) ∨ n ∈ errs.map (·.1) →
    ∃ text, (n, text) ∈ numberedLines source ∧ ¬Blank text.toList
  /-- The errors are the diagnostics that are about parsing, and about lines without a statement,
  with the number of the line in front. -/
  errors : errs.map (fun e => (e.1, atLine e.1 e.2.message)) =
    (s.diagnostics.filter fun d => d.IsUnstated sts).map
      fun d => (d.line, s!"Line {d.line}: {d.issue.message}")
  /-- The listing has the statements on lines without an error, after the preamble. -/
  listing : ∃ ps, s.listing = preamble :: ps ∧
    ps.map (·.source) = (sts.filter fun st => st.IsClear s.errors).map (·.text)
  /-- A statement has as many operands as it should have. They are the words that follow the keyword
  on its line; what comes after them is a comment. -/
  operands : ∀ st ∈ sts, st.clause.operands.length = st.clause.opcode.arity ∧
    ∃ text comment, (st.line, text) ∈ numberedLines source ∧
      st.text = String.ofList (trimEnd text.toList) ∧
      Spaced ((st.clause.opcode.keyword :: (st.clause.operands ++ comment)).map String.toList)
        text.toList

theorem mem_inhabited_iff {source : String} {n : Int} : n ∈ (inhabited source).map (·.1) ↔
    ∃ text, (n, text) ∈ numberedLines source ∧ ¬Blank text.toList := by
  simp only [inhabited, List.mem_map, List.mem_filter, Prod.exists, exists_and_right,
    exists_eq_right, ne_eq, words_eq_nil_iff, decide_not, Bool.not_eq_true', decide_eq_false_iff_not]

/-- No two lines have the same number. -/
theorem nodup_inhabited (source : String) : ((inhabited source).map (·.1)).Nodup := by
  have hsorted := (numberedLines_pairwise source).filter fun line => words line.2.toList ≠ []
  exact List.pairwise_map.mpr (hsorted.imp fun hlt => hlt.ne)

/-- Sorting the lines of a source text gives what compiling it goes by, in any layout of the data
store, if the compilation is not ended early. -/
theorem parseAll_compile {symbols : SymbolTable} {source : String}
    (h : compile symbols source = (s, none)) :
    SameReading source (Statement.parseAll source).1 (Statement.parseAll source).2 s := by
  obtain ⟨ps, hlisting, hstep⟩ := inStep_compile h
  have hnumbers := numberedLines_pairwise source
  generalize (Statement.parseAll source).1 = sts at hstep ⊢
  generalize (Statement.parseAll source).2 = errs at hstep ⊢
  have hperm : (sts.map (·.line) ++ errs.map (·.1)).Perm ((inhabited source).map (·.1)) := hstep.perm
  constructor
  case once =>
    intro n text hmem hblank
    rw [← List.count_append, hperm.count_eq]
    exact List.count_eq_one_of_mem (nodup_inhabited source) (mem_inhabited_iff.mpr ⟨text, hmem, hblank⟩)
  case only =>
    intro n hn
    exact mem_inhabited_iff.mp (hperm.mem_iff.mp (List.mem_append.mpr hn))
  case errors =>
    rw [← hstep.errors_eq hnumbers, List.map_map]
    apply List.map_congr_left
    intro e he
    -- lines are numbered from 1, so that the number is mentioned
    have hne : e.1 ≠ 0 := by
      have hmem : e.1 ∈ (inhabited source).map (·.1) :=
        hperm.mem_iff.mp (List.mem_append_right _ (List.mem_map_of_mem he))
      obtain ⟨text, hline, -⟩ := mem_inhabited_iff.mp hmem
      rw [numberedLines_eq] at hline
      have hpositive := (numberFrom_pairwise 1 _).2 _ hline
      simp only at hpositive
      omega
    simp only [Function.comp, atLine, if_neg hne]
    rfl
  case listing =>
    exact ⟨ps, hlisting, hstep.entries_eq hnumbers⟩
  case operands =>
    intro st hst
    obtain ⟨text, hmem, hparse⟩ := hstep.exists_parse st hst
    obtain ⟨-, -, htext⟩ := Statement.parse_eq_some hparse
    obtain ⟨comment, hwords⟩ := Statement.words_of_parse hparse
    refine ⟨st.clause.length_operands, text, comment, hmem, htext, spaced_iff.mpr ?_⟩
    rw [← hwords, List.map_map]
    simp [Function.comp_def]

/-- Has a blank line, lines that are no statements, a statement with an unknown operand, a definition
that comes too late, and a comment. -/
def mixed : String := "DEF a $5\n\n HOP\nADD a\nMOV a zz\nMOV a a once more\nDEF b #1 \n"

/-- The two lines that are no statements are the errors of the one way and, together with the unknown
operand, those of the other. The warnings have no part in it. -/
theorem parseAll_compile_mixed :
    (compile {} mixed).2 = none ∧
    SameReading mixed (Statement.parseAll mixed).1 (Statement.parseAll mixed).2
      (compile {} mixed).1 ∧
    (Statement.parseAll mixed).2 = [(3, .unknownOperator "HOP"), (4, .missingOperands .add 1)] ∧
    (compile {} mixed).1.diagnostics = [⟨.hexLength (.tooShort "5"), 1⟩,
      ⟨.statement (.unknownOperator "HOP"), 3⟩, ⟨.statement (.missingOperands .add 1), 4⟩,
      ⟨.unknownVariable "zz", 5⟩, ⟨.lateDefinition "b", 7⟩] ∧
    ((Statement.parseAll mixed).1.filter fun st =>
      st.IsClear (compile {} mixed).1.errors).map (·.text) =
        ["DEF a $5", "MOV a a once more", "DEF b #1"] := by
  have hraised : (compile {} mixed).2 = none := by decide +kernel
  refine ⟨hraised, parseAll_compile (compile_eq hraised), ?_, ?_, ?_⟩
  · decide +kernel
  · decide +kernel
  · decide +kernel

end Session

end Subleq
