import Mathlib
import Subleq.Proofs.Listing

/-!
# Subleq.Proofs.Outcomes — what becomes of a line

In whatever state a line is compiled, it has one of four effects (`LineEffect`), and what is compiled
changes with one of them only. Operands are resolved, names checked and cells allotted in the midst of
the work on a line, so the proof looks at the work step by step: all of it but the warning of a late
definition is `Plain`, which is kept by putting steps together.
-/

namespace Subleq

open Layout

/-! ## Work that warns and rejects -/

namespace LineWork

variable {α β : Type} {x : LineWork α} {f : α → LineWork β} {ws : List Issue}

/-- The work adds warnings to those noted before, none of them of a late definition, and it does not
depend on them; a warning is no reason to end it. -/
structure Plain (x : LineWork α) : Prop where
  run : ∀ ws, x.run ws = (x.outcome.1, ws ++ x.outcome.2)
  warnings : ∀ w ∈ x.outcome.2, w.kind = .warning ∧ w.isLateDefinition = false
  rejects : ∀ cause, x.outcome.1 = .error (.issue cause) → cause.kind ≠ .warning

/-- The work is ended by a numeral that has too many digits. -/
def Raises (x : LineWork α) (cause : Text.TooManyDigits) : Prop :=
  x.outcome.1 = .error (.tooManyDigits cause)

/-- The obstacle that the work meets. -/
def obstacle? (x : LineWork α) : Option Obstacle :=
  match x.outcome.1 with
  | .ok _ => none
  | .error obstacle => some obstacle

theorem raises_iff {cause : Text.TooManyDigits} :
    x.Raises cause ↔ x.obstacle? = some (.tooManyDigits cause) := by
  unfold Raises obstacle?
  split
  · next heq => simp [heq]
  · next heq => simp [heq]

theorem obstacle?_eq_none_iff : x.obstacle? = none ↔ ∃ a, x.outcome.1 = .ok a := by
  unfold obstacle?
  split
  · next a heq => simp [heq]
  · next heq => simp [heq]

theorem outcome_bind (hf : ∀ a, (f a).Plain) : (x >>= f).outcome =
    match x.outcome with
    | (.ok a, ws) => ((f a).outcome.1, ws ++ (f a).outcome.2)
    | (.error e, ws) => (.error e, ws) := by
  have hrun := run_bind x f []
  change (x >>= f).outcome = _ at hrun
  rw [hrun]
  change (match x.outcome with
    | (.ok a, ws₁) => (f a).run ws₁
    | (.error e, ws₁) => (.error e, ws₁)) = _
  cases hx : x.outcome with
  | mk r ws =>
    cases r with
    | error e => rfl
    | ok a => exact (hf a).run ws

theorem plain_pure (a : α) : (pure a : LineWork α).Plain :=
  ⟨fun ws => by simp [run_pure, outcome], by simp [run_pure, outcome], by simp [run_pure, outcome]⟩

theorem plain_reject {cause : Issue} (h : cause.kind ≠ .warning) :
    (reject cause : LineWork α).Plain := by
  refine ⟨fun ws => by simp [run_reject, outcome], by simp [run_reject, outcome], ?_⟩
  intro cause' hcause
  simp only [outcome, run_reject, Except.error.injEq] at hcause
  exact (Issue.obstacle_eq_issue hcause).1 ▸ h

theorem Plain.bind (hx : x.Plain) (hf : ∀ a, (f a).Plain) : (x >>= f).Plain := by
  have houtcome := outcome_bind (x := x) hf
  constructor
  case run =>
    intro ws
    rw [run_bind, hx.run ws, houtcome]
    cases x.outcome with
    | mk r ws' =>
      cases r with
      | error e => rfl
      | ok a => simp only [(hf a).run (ws ++ ws'), List.append_assoc]
  case warnings =>
    intro w hw
    rw [houtcome] at hw
    have hwarnings := hx.warnings w
    split at hw
    · next a ws' heq =>
      rw [heq] at hwarnings
      rcases List.mem_append.mp hw with hw | hw
      · exact hwarnings hw
      · exact (hf a).warnings w hw
    · next e ws' heq =>
      rw [heq] at hwarnings
      exact hwarnings hw
  case rejects =>
    intro cause hcause
    rw [houtcome] at hcause
    have hrejects := hx.rejects cause
    split at hcause
    · next a ws' heq => exact (hf a).rejects cause hcause
    · next e ws' heq =>
      rw [heq] at hrejects
      exact hrejects (congrArg Except.error (Except.error.inj hcause))

/-- Where the obstacle of what follows is always the same, it comes after that of the beginning. -/
theorem obstacle?_bind (hf : ∀ a, (f a).Plain) {o : Option Obstacle}
    (ho : ∀ a, x.outcome.1 = .ok a → (f a).obstacle? = o) :
    (x >>= f).obstacle? = x.obstacle?.or o := by
  rw [obstacle?, outcome_bind hf, obstacle?]
  cases hx : x.outcome with
  | mk r ws =>
    cases r with
    | error e => rfl
    | ok a => exact ho a (by rw [hx])

theorem obstacle?_bind_pure (g : α → β) : (x >>= fun a => pure (g a)).obstacle? = x.obstacle? := by
  rw [obstacle?_bind (f := fun a => pure (g a)) (fun a => plain_pure (g a)) fun _ _ => rfl,
    Option.or_none]

end LineWork

/-! ## Operands -/

namespace LineWork

theorem plain_decimal (numeral : Text.Decimal) : (decimal numeral).Plain := by
  unfold decimal
  split
  · exact plain_pure _
  · exact ⟨fun ws => by simp [run_throw, outcome], by simp [run_throw, outcome],
      by simp [run_throw, outcome]⟩

theorem plain_warn {cause : Issue} (h : cause.kind = .warning)
    (h' : cause.isLateDefinition = false) : (warn cause).Plain :=
  ⟨fun ws => by simp [run_warn, outcome], by simp [run_warn, outcome, h, h'],
    by simp [run_warn, outcome]⟩

end LineWork

namespace SymbolTable

open LineWork

variable {t : SymbolTable} {token : String} {cause : Text.TooManyDigits}

theorem plain_address (t : SymbolTable) (token : String) : (t.address token).Plain := by
  unfold address
  split
  · exact (plain_decimal _).bind fun _ => plain_pure _
  · split
    · exact plain_pure _
    · exact plain_reject (by simp [Issue.kind])
  · split
    · exact plain_pure _
    · exact (plain_warn rfl rfl).bind fun _ => plain_pure _
    · exact plain_reject (by simp [Issue.kind])
  · split
    · exact plain_pure _
    · exact plain_reject (by simp [Issue.kind])

theorem plain_value (t : SymbolTable) (token : String) : (t.value token).Plain := by
  unfold value
  split
  · exact (plain_decimal _).bind fun _ => plain_pure _
  · exact t.plain_address token

/-- The token is a decimal numeral that is too long to be converted. -/
def IsTooLong (token : String) : Prop :=
  ∃ numeral, Text.Decimal.parse? token.toList = some numeral ∧ 4300 < numeral.digits.length

theorem raises_decimal_iff {numeral : Text.Decimal} {f : Int → Int} :
    (decimal numeral >>= fun v => pure (f v)).Raises cause ↔ numeral.value = .error cause := by
  rw [raises_iff, obstacle?_bind_pure, ← raises_iff, Raises, outcome, decimal]
  cases numeral.value <;> simp [run_pure, run_throw]

/-- Of all tokens only decimal numerals raise. -/
theorem not_raises_address (hnone : Text.Decimal.parse? token.toList = none) :
    ¬(t.address token).Raises cause := by
  unfold Raises outcome address
  split
  · next numeral hliteral =>
    rw [Literal.ofToken?_eq_decimal_iff, hnone] at hliteral
    cases hliteral
  · split <;> simp [run_pure, run_reject]
  · split
    · simp [run_pure]
    · simp only [run_bind, run_warn, run_pure]
      simp
    · simp [run_reject]
  · split <;> simp [run_pure, run_reject]

theorem raises_address_iff : (t.address token).Raises cause ↔
    ∃ numeral, Text.Decimal.parse? token.toList = some numeral ∧ numeral.value = .error cause := by
  cases hparse : Text.Decimal.parse? token.toList with
  | none => simp [not_raises_address hparse]
  | some numeral =>
    have hliteral := Literal.ofToken?_eq_decimal_iff.mpr hparse
    unfold address
    simp only [hliteral, raises_decimal_iff, Option.some.injEq, exists_eq_left']

/-- Where a token has no value, it has no address for the same reason. -/
theorem obstacle?_value (t : SymbolTable) (token : String) :
    (t.value token).obstacle? = (t.address token).obstacle? := by
  unfold value
  split
  · next numeral hliteral =>
    unfold address
    simp only [hliteral, obstacle?_bind_pure]
  · rfl

theorem raises_value_iff : (t.value token).Raises cause ↔ (t.address token).Raises cause := by
  rw [raises_iff, raises_iff, obstacle?_value]

theorem exists_raises_address_iff : (∃ cause, (t.address token).Raises cause) ↔ IsTooLong token := by
  simp only [raises_address_iff, IsTooLong, Text.Decimal.value, Text.digitLimit]
  constructor
  · rintro ⟨cause, numeral, hparse, hvalue⟩
    refine ⟨numeral, hparse, ?_⟩
    by_contra hshort
    simp [hshort] at hvalue
  · rintro ⟨numeral, hparse, hlong⟩
    exact ⟨_, numeral, hparse, if_pos hlong⟩

/-- The token is a malformed literal or a name that is not known. -/
def Refuses (t : SymbolTable) (token : String) (cause : Issue) : Prop :=
  (t.address token).obstacle? = some (.issue cause)

theorem obstacle?_reject {α : Type} (cause : Issue) :
    (reject cause : LineWork α).obstacle? = some cause.obstacle := rfl

theorem Refuses.kind_eq {cause : Issue} (h : t.Refuses token cause) : cause.kind = .parse := by
  unfold Refuses address at h
  split at h
  · next numeral _ =>
    rw [obstacle?_bind_pure] at h
    unfold decimal at h
    cases hvalue : numeral.value <;> rw [hvalue] at h <;> cases h
  · split at h
    · cases h
    · rw [obstacle?_reject, Issue.obstacle_literal] at h
      cases h
      rfl
  · split at h
    · cases h
    · cases h
    · rw [obstacle?_reject, Issue.obstacle_literal] at h
      cases h
      rfl
  · split at h
    · cases h
    · rw [obstacle?_reject, Issue.obstacle_unknownVariable] at h
      cases h
      rfl

end SymbolTable

namespace Operation

open LineWork

theorem plain_mapM (t : SymbolTable) (op : Operation String) : (op.mapM t.address).Plain := by
  have ha := t.plain_address
  cases op with
  | jump a => exact (ha a).bind fun _ => plain_pure _
  | jumpVia a => exact (ha a).bind fun _ => plain_pure _
  | move a b => exact (ha a).bind fun _ => (ha b).bind fun _ => plain_pure _
  | arith op a b c =>
    exact (ha a).bind fun _ => (ha b).bind fun _ => (ha c).bind fun _ => plain_pure _
  | branch cond a b c =>
    exact (ha a).bind fun _ => (ha b).bind fun _ => (ha c).bind fun _ => plain_pure _

/-- Operands are resolved up to the first one that meets an obstacle. -/
theorem obstacle?_mapM (t : SymbolTable) (op : Operation String) :
    (op.mapM t.address).obstacle? = op.operands.findSome? fun w => (t.address w).obstacle? := by
  have ha := t.plain_address
  have hor : ∀ (w : String) (ws : List String),
      ((w :: ws).findSome? fun w => (t.address w).obstacle?) =
        (t.address w).obstacle?.or (ws.findSome? fun w => (t.address w).obstacle?) := by
    intro w ws
    rw [List.findSome?_cons]
    split <;> simp_all
  -- the rest of the work, from each operand on
  have hlast : ∀ (w : String) (f : Int → Operation Int),
      (t.address w >>= fun a => pure (f a)).obstacle? =
        [w].findSome? fun w => (t.address w).obstacle? := by
    intro w f
    rw [hor, obstacle?_bind_pure]
    exact (Option.or_none).symm
  have hmore : ∀ (w : String) (ws : List String) (f : Int → LineWork (Operation Int)),
      (∀ a, (f a).Plain) →
      (∀ a, (f a).obstacle? = ws.findSome? fun w => (t.address w).obstacle?) →
      (t.address w >>= f).obstacle? = (w :: ws).findSome? fun w => (t.address w).obstacle? := by
    intro w ws f hf hrest
    rw [hor, obstacle?_bind hf fun a _ => hrest a]
  cases op with
  | jump a => exact hlast a _
  | jumpVia a => exact hlast a _
  | move a b =>
    exact hmore a [b] _ (fun _ => (ha b).bind fun _ => plain_pure _) fun _ => hlast b _
  | arith op a b c =>
    exact hmore a [b, c] _ (fun _ => (ha b).bind fun _ => (ha c).bind fun _ => plain_pure _)
      fun _ => hmore b [c] _ (fun _ => (ha c).bind fun _ => plain_pure _) fun _ => hlast c _
  | branch cond a b c =>
    exact hmore a [b, c] _ (fun _ => (ha b).bind fun _ => (ha c).bind fun _ => plain_pure _)
      fun _ => hmore b [c] _ (fun _ => (ha c).bind fun _ => plain_pure _) fun _ => hlast c _

end Operation

/-! ## The code of a statement -/

namespace Clause

/-- The words whose addresses or values are looked for: all operands, but of a definition only its
value. -/
def resolved : Clause → List String
  | .define _ token => [token]
  | .operation op => op.operands

end Clause

namespace Session

open LineWork

variable {s s' : Session} {st : Statement} {cause : Text.TooManyDigits}

theorem plain_requireSpace (s : Session) (cells : Nat) : (s.requireSpace cells).Plain := by
  unfold requireSpace lackOfSpace?
  split_ifs
  · exact plain_reject (by simp [Issue.kind])
  · exact plain_pure _

theorem obstacle?_requireSpace (s : Session) (cells : Nat) :
    (s.requireSpace cells).obstacle? = (s.lackOfSpace? cells).map Issue.obstacle := by
  unfold requireSpace
  cases s.lackOfSpace? cells <;> rfl

/-- The work on a definition after its value is known. -/
def defining (s : Session) (name : String) (line value : Int) : LineWork (Code × SymbolTable) := do
  if let some cause := nameError? name then reject (.define (.badName cause))
  s.requireSpace 1
  match s.symbols.define name value line with
  | .ok (v, symbols) => return (.define (Byte.decode value) v.address, symbols)
  | .error cause => reject (.define cause)

theorem plain_defining (s : Session) (name : String) (line value : Int) :
    (s.defining name line value).Plain := by
  have hplaced : (do
      s.requireSpace 1
      match s.symbols.define name value line with
      | .ok (v, symbols) => return (Code.define (Byte.decode value) v.address, symbols)
      | .error cause => reject (.define cause) : LineWork (Code × SymbolTable)).Plain := by
    refine (s.plain_requireSpace 1).bind fun _ => ?_
    split
    · exact plain_pure _
    · next cause _ => exact plain_reject (by cases cause <;> simp [Issue.kind])
  unfold defining
  cases nameError? name with
  | none => exact hplaced
  | some cause => exact (plain_reject (by simp [Issue.kind])).bind fun _ => hplaced

/-- What is wrong with a statement whose operands are resolved: the name that it defines is looked at
first, then the room in the program store, and then the heap. -/
def complaint? (s : Session) : Clause → Option Issue
  | .define name _ =>
    match nameError? name with
    | some cause => some (.define (.badName cause))
    | none =>
      (s.lackOfSpace? 1).or
        (if s.symbols.find? name = none ∧ s.symbols.capacity ≤ s.symbols.size then
          some (.define (.heapFull s.symbols.capacity name))
        else none)
  | .operation op => s.lackOfSpace? op.opcode.cellCount

theorem obstacle?_defining (s : Session) (name token : String) (line value : Int) :
    (s.defining name line value).obstacle? =
      (s.complaint? (.define name token)).map Issue.obstacle := by
  have hheap : nameError? name = none → (match s.symbols.define name value line with
      | .ok (v, symbols) => return (Code.define (Byte.decode value) v.address, symbols)
      | .error cause => reject (.define cause) : LineWork (Code × SymbolTable)).obstacle? =
      (if s.symbols.find? name = none ∧ s.symbols.capacity ≤ s.symbols.size then
        some (Issue.define (.heapFull s.symbols.capacity name)) else none).map Issue.obstacle := by
    intro hname
    unfold SymbolTable.define
    rw [hname]
    cases hfind : s.symbols.find? name with
    | some old => simp only [reduceCtorEq, false_and, if_false]; rfl
    | none =>
      simp only [true_and]
      split_ifs <;> rfl
  unfold defining
  cases hname : nameError? name with
  | some cause =>
    simp only [complaint?, hname]
    rfl
  | none =>
    simp only [complaint?, hname, Option.map_or]
    rw [← hheap hname, ← obstacle?_requireSpace]
    refine obstacle?_bind (fun _ => ?_) fun _ _ => rfl
    split
    · exact plain_pure _
    · next cause _ => exact plain_reject (by cases cause <;> simp [Issue.kind])

theorem codeFor_define {name token : String} (hclause : st.clause = .define name token) :
    s.codeFor st = (do
      if s.definitionsClosed then warn (.lateDefinition name)
      let value ← s.symbols.value token
      s.defining name st.line value) := by
  unfold codeFor
  rw [hclause]
  rfl

theorem codeFor_operation {op : Operation String} (hclause : st.clause = .operation op) :
    s.codeFor st = (op.mapM s.symbols.address >>= fun op' => do
      s.requireSpace (Code.operation op').size
      return (Code.operation op', s.symbols)) := by
  unfold codeFor
  rw [hclause]

/-- The warnings that do not come from operands. -/
def lateWarnings (s : Session) : Clause → List Issue
  | .define name _ => if s.definitionsClosed then [.lateDefinition name] else []
  | .operation _ => []

/-- What is in the way of the code of a statement. -/
def statementObstacle? (s : Session) (clause : Clause) : Option Obstacle :=
  (clause.resolved.findSome? fun w => (s.symbols.address w).obstacle?).or
    ((s.complaint? clause).map Issue.obstacle)

theorem resolves_iff {w : String} :
    (∃ a, s.symbols.Resolves w a) ↔ (s.symbols.address w).obstacle? = none :=
  obstacle?_eq_none_iff.symm

/-- All operands before the token have addresses. -/
def Reaches (s : Session) (clause : Clause) (token : String) : Prop :=
  ∃ before after, clause.resolved = before ++ token :: after ∧
    ∀ w ∈ before, ∃ a, s.symbols.Resolves w a

theorem statementObstacle?_eq_some_iff {clause : Clause} {o : Obstacle} :
    s.statementObstacle? clause = some o ↔
      (∃ token, s.Reaches clause token ∧ (s.symbols.address token).obstacle? = some o) ∨
      (∀ w ∈ clause.resolved, ∃ a, s.symbols.Resolves w a) ∧
        ∃ cause, s.complaint? clause = some cause ∧ cause.obstacle = o := by
  simp only [statementObstacle?, Reaches, resolves_iff, Option.or_eq_some_iff,
    List.findSome?_eq_some_iff, List.findSome?_eq_none_iff, Option.map_eq_some_iff]
  refine or_congr_left ⟨?_, ?_⟩
  · rintro ⟨before, token, after, hsplit, htoken, hbefore⟩
    exact ⟨token, ⟨before, after, hsplit, hbefore⟩, htoken⟩
  · rintro ⟨token, ⟨before, after, hsplit, hbefore⟩, htoken⟩
    exact ⟨before, token, after, hsplit, htoken, hbefore⟩

/-- But for the warning of a late definition, the work on a statement is plain. -/
theorem codeFor_plain (s : Session) (st : Statement) : ∃ work : LineWork (Code × SymbolTable),
    work.Plain ∧
    (s.codeFor st).outcome = (work.outcome.1, s.lateWarnings st.clause ++ work.outcome.2) ∧
    work.obstacle? = s.statementObstacle? st.clause := by
  cases hclause : st.clause with
  | define name token =>
    -- the warning comes before everything else, whatever the value and the name come to
    have hdefining := fun value => s.plain_defining name st.line value
    have hplain := (s.symbols.plain_value token).bind hdefining
    refine ⟨_, hplain, ?_, ?_⟩
    · rw [codeFor_define hclause]
      cases hclosed : s.definitionsClosed with
      | true =>
        simp only [lateWarnings, hclosed, if_true]
        exact hplain.run [.lateDefinition name]
      | false =>
        simp only [lateWarnings, hclosed, Bool.false_eq_true, if_false]
        exact hplain.run []
    · rw [obstacle?_bind hdefining fun value _ => s.obstacle?_defining name token st.line value,
        SymbolTable.obstacle?_value]
      simp [statementObstacle?, Clause.resolved]
  | operation op =>
    have hplaced : ∀ op' : Operation Int, (do
        s.requireSpace (Code.operation op').size
        return (Code.operation op', s.symbols) : LineWork (Code × SymbolTable)).Plain :=
      fun op' => (s.plain_requireSpace _).bind fun _ => plain_pure _
    have hplain := (op.plain_mapM s.symbols).bind hplaced
    refine ⟨_, hplain, ?_, ?_⟩
    · rw [codeFor_operation hclause]
      exact hplain.run []
    · rw [obstacle?_bind hplaced fun op' hop => ?_, Operation.obstacle?_mapM]
      · rfl
      · -- the operands make no difference to the size
        have hrun : (op.mapM s.symbols.address).run [] =
            (.ok op', (op.mapM s.symbols.address).outcome.2) := Prod.ext hop rfl
        have hrel := Operation.rel_of_mapM hrun
        rw [obstacle?_bind_pure, obstacle?_requireSpace, (Code.Realizes.operation hrel).size_eq]
        rfl

end Session

/-! ## Definitions -/

namespace SymbolTable

/-- The table without what it has under a name. -/
def without (t : SymbolTable) (name : String) : SymbolTable :=
  { t with «variables» := t.variables.filter (·.name ≠ name) }

/-- A definition changes nothing but what is under its name. -/
theorem without_define {t t' : SymbolTable} {name : String} {value line : Int} {v : Variable}
    (h : t.define name value line = .ok (v, t')) : t'.without name = t.without name := by
  rcases define_cases h with ⟨_, ⟨old, hold, hv, rfl⟩ | ⟨_, _, hv, rfl⟩⟩
  · have hname : v.name = name := by
      rw [hv]
      exact (find?_mem hold).2
    have hfilter : ∀ vs : List Variable,
        (replace v vs).filter (·.name ≠ name) = vs.filter (·.name ≠ name) := by
      intro vs
      induction vs with
      | nil => rfl
      | cons w ws ih =>
        have hcons : replace v (w :: ws) =
            (if w.name = v.name then v else w) :: replace v ws := rfl
        by_cases hw : w.name = name
        · simpa [hcons, hname, hw] using ih
        · simpa [hcons, hname, hw] using ih
    simp only [without, hfilter]
  · simp [without, hv]

/-- What is defined is found under its name. -/
theorem find?_define {t t' : SymbolTable} {name : String} {value line : Int} {v : Variable}
    (h : t.define name value line = .ok (v, t')) : t'.find? name = some v := by
  rcases define_cases h with ⟨_, ⟨old, hold, hv, rfl⟩ | ⟨hnew, _, hv, rfl⟩⟩
  · rw [find?_replace, hold, Option.map_some, if_pos (by rw [hv])]
  · unfold find? at hnew ⊢
    rw [List.find?_append, hnew]
    simp [hv]

end SymbolTable

/-! ## Effects -/

theorem Statement.words_eq_nil_of_parse {text : String} {line : Int}
    (h : Statement.parse text line = .ok none) : Text.words text.toList = [] := by
  unfold parse at h
  split at h
  · next hwords => exact List.map_eq_nil_iff.mp hwords
  · split at h
    · simp at h
    · split at h <;> simp at h

/-- What a line can do. -/
inductive LineEffect where
  | blank
  | emitted
  | rejected
  | raised
deriving Repr, DecidableEq

namespace Session

variable {s s' : Session} {text : String} {line : Int} {st : Statement} {code : Code}

/-- All that is compiled is the same. -/
structure Keeps (s s' : Session) : Prop where
  program : s'.program = s.program
  pc : s'.pc = s.pc
  listing : s'.listing = s.listing
  symbols : s'.symbols = s.symbols

theorem Reported.keeps (h : s.Reported s') : s.Keeps s' :=
  ⟨h.program, h.pc, h.listing, h.symbols⟩

/-- The diagnostics are warnings about the line. -/
def Warnings (line : Int) (ds : List Diagnostic) : Prop :=
  ∀ d ∈ ds, d.isError = false ∧ d.line = line

theorem Warnings.filter_isError {warnings : List Diagnostic} (h : Warnings line warnings) :
    warnings.filter (·.isError) = [] := by
  rw [List.filter_eq_nil_iff]
  intro d hd
  simp [(h d hd).1]

theorem Warnings.line_eq {warnings : List Diagnostic} (h : Warnings line warnings) :
    ∀ d ∈ warnings, d.line = line :=
  fun d hd => (h d hd).2

/-- The error after the warnings is about the same line. -/
theorem Warnings.line_eq_concat {warnings : List Diagnostic} (h : Warnings line warnings)
    (cause : Issue) : ∀ d ∈ warnings ++ [⟨cause, line⟩], d.line = line := by
  intro d hd
  rcases List.mem_append.mp hd with hd | hd
  · exact h.line_eq d hd
  · rw [List.mem_singleton.mp hd]

/-- The line has been reported as one that cannot be compiled. -/
structure Rejects (s s' : Session) (line : Int) : Prop extends s.Keeps s' where
  diagnostics : ∃ warnings cause, s'.diagnostics = s.diagnostics ++ warnings ++ [⟨cause, line⟩] ∧
    Warnings line warnings ∧ (⟨cause, line⟩ : Diagnostic).isError = true

/-- The line has ended the compilation. -/
structure Raises (s s' : Session) (line : Int) : Prop extends s.Keeps s' where
  diagnostics : ∃ warnings, s'.diagnostics = s.diagnostics ++ warnings ∧ Warnings line warnings

/-- The code of the line has been placed. -/
structure Emits (s s' : Session) (text : String) (line : Int) (st : Statement) (code : Code) :
    Prop where
  parsed : Statement.parse text line = .ok (some st)
  size : code.size = st.clause.opcode.cellCount
  pc : s'.pc = s.pc + st.clause.opcode.cellCount
  program : ∀ x, s'.program[x]? =
    if s.pc ≤ x ∧ x < s'.pc then (code.cells s.pc)[(x - s.pc).toNat]? else s.program[x]?
  listing : s'.listing =
    s.listing ++ [⟨s.pc, code, String.ofList (Text.trimEnd text.toList)⟩]
  diagnostics : ∃ warnings, s'.diagnostics = s.diagnostics ++ warnings ∧ Warnings line warnings
  /-- A definition changes the table under its name, and nothing else changes it. -/
  symbols : match st.clause with
    | .define name _ => s'.symbols.without name = s.symbols.without name ∧
        (s'.symbols.find? name).isSome
    | .operation _ => s'.symbols = s.symbols

end Session

namespace LineOutcome

def effect : LineOutcome → LineEffect
  | blank => .blank
  | emitted _ => .emitted
  | rejected _ => .rejected
  | raised _ => .raised

/-- What was in the way of the line. -/
def obstacle? : LineOutcome → Option Obstacle
  | blank | emitted _ => none
  | rejected cause => some (.issue cause)
  | raised cause => some (.tooManyDigits cause)

theorem eq_rejected_iff {r : LineOutcome} {cause : Issue} :
    r = .rejected cause ↔ r.obstacle? = some (.issue cause) := by
  cases r <;> simp [obstacle?]

theorem eq_raised_iff {r : LineOutcome} {cause : Text.TooManyDigits} :
    r = .raised cause ↔ r.obstacle? = some (.tooManyDigits cause) := by
  cases r <;> simp [obstacle?]

end LineOutcome

/-- A line that is compiled in a session comes to a session with an outcome, and this is its
effect. -/
def LineEffect.Describes (effect : LineEffect) (s : Session) (text : String) (line : Int)
    (r : Session × LineOutcome) : Prop :=
  match effect with
  | blank => (∀ cause, r.2 ≠ .raised cause) ∧ Text.words text.toList = [] ∧ r.1 = s
  | emitted => (∀ cause, r.2 ≠ .raised cause) ∧ ∃ st code, s.Emits r.1 text line st code
  | rejected => (∀ cause, r.2 ≠ .raised cause) ∧ s.Rejects r.1 line
  | raised => (∃ cause, r.2 = .raised cause) ∧ s.Raises r.1 line

namespace Session

open LineWork

variable {s : Session} {text : String} {line : Int}

/-- No line has two effects. -/
theorem effect_unique {e e' : LineEffect} {r : Session × LineOutcome}
    (h : e.Describes s text line r) (h' : e'.Describes s text line r) : e = e' := by
  -- raising shows in the outcome, placing in the listing, and reporting in the diagnostics
  have hraised : ∀ {e : LineEffect}, e.Describes s text line r →
      (e = .raised ↔ ∃ cause, r.2 = .raised cause) := by
    intro e h
    cases e with
    | raised => exact ⟨fun _ => h.1, fun _ => rfl⟩
    | blank | emitted | rejected => exact ⟨nofun, fun ⟨cause, hcause⟩ => absurd hcause (h.1 cause)⟩
  have hemitted : ∀ {e : LineEffect}, e.Describes s text line r →
      (e = .emitted ↔ r.1.listing ≠ s.listing) := by
    intro e h
    cases e with
    | emitted =>
      rcases h.2 with ⟨st, code, hemits⟩
      simp [hemits.listing]
    | blank => simp [h.2.2]
    | rejected => simp [h.2.listing]
    | raised => simp [h.2.listing]
  have hblank : ∀ {e : LineEffect}, e.Describes s text line r → e = .blank ∨ e = .rejected →
      (e = .blank ↔ r.1.diagnostics = s.diagnostics) := by
    intro e h hcases
    rcases hcases with rfl | rfl
    · simp [h.2.2]
    · rcases h.2.diagnostics with ⟨warnings, cause, hdiagnostics, _⟩
      simp [hdiagnostics]
  have h₁ := (hraised h).trans (hraised h').symm
  have h₂ := (hemitted h).trans (hemitted h').symm
  have h₃ := fun hb hb' => (hblank h hb).trans (hblank h' hb').symm
  clear hraised hemitted hblank h h'
  cases e <;> cases e' <;> simp_all

/-! ## Compiling a statement -/

/-- Code that was found for a statement is as long as its opcode says, and the table has changed
under the name of a definition at most. -/
theorem Coded.frame {symbols : SymbolTable} {ws : List Issue} {st : Statement} {code : Code}
    (h : s.Coded st code symbols ws) : code.size = st.clause.opcode.cellCount ∧
      match st.clause with
      | .define name _ => symbols.without name = s.symbols.without name ∧
          (symbols.find? name).isSome
      | .operation _ => symbols = s.symbols := by
  rcases h.kind with ⟨name, token, pattern, v, hclause, _, hdefine, rfl, _⟩ |
    ⟨op, op', hclause, hrel, rfl, hsymbols⟩
  · simp only [hclause]
    exact ⟨rfl, SymbolTable.without_define hdefine, by rw [SymbolTable.find?_define hdefine]; rfl⟩
  · simp only [hclause]
    exact ⟨(Code.Realizes.operation hrel).size_eq, hsymbols⟩

/-- What is known of a session and an outcome to which a statement leads. -/
structure Concludes (s : Session) (text : String) (line : Int) (st : Statement)
    (r : Session × LineOutcome) : Prop where
  effect : r.2.effect.Describes s text line r
  obstacle : r.2.obstacle? = s.statementObstacle? st.clause
  closed : r.1.definitionsClosed = s.definitionsClosed
  late : ∃ new, r.1.diagnostics = s.diagnostics ++ new ∧
    new.filter (·.issue.isLateDefinition) = (s.lateWarnings st.clause).map (⟨·, line⟩)

/-- The warnings of a line, among which there is that of a late definition if it is one. -/
theorem warnings_frame (s : Session) (clause : Clause) {ws : List Issue}
    (hws : ∀ w ∈ ws, w.kind = .warning ∧ w.isLateDefinition = false) (line : Int) :
    Warnings line ((s.lateWarnings clause ++ ws).map (⟨·, line⟩)) ∧
      ((s.lateWarnings clause ++ ws).map fun w => (⟨w, line⟩ : Diagnostic)).filter
        (·.issue.isLateDefinition) = (s.lateWarnings clause).map (⟨·, line⟩) := by
  have hlate : ∀ w ∈ s.lateWarnings clause, w.kind = .warning ∧ w.isLateDefinition = true := by
    intro w hw
    cases clause with
    | define name token =>
      rw [lateWarnings] at hw
      split at hw
      · rw [List.mem_singleton.mp hw]
        exact ⟨rfl, rfl⟩
      · cases hw
    | operation op => cases hw
  constructor
  · intro d hd
    rcases List.mem_map.mp hd with ⟨w, hw, rfl⟩
    have hkind : w.kind = .warning := by
      rcases List.mem_append.mp hw with hw | hw
      · exact (hlate w hw).1
      · exact (hws w hw).1
    simp [Diagnostic.isError, hkind]
  · rw [List.map_append, List.filter_append, List.filter_eq_self.mpr, List.filter_eq_nil_iff.mpr,
      List.append_nil]
    · intro d hd
      rcases List.mem_map.mp hd with ⟨w, hw, rfl⟩
      simp [(hws w hw).2]
    · intro d hd
      rcases List.mem_map.mp hd with ⟨w, hw, rfl⟩
      exact (hlate w hw).2

/-- An issue that is reported as an error is no late definition. -/
theorem isLateDefinition_of_kind {cause : Issue} (h : cause.kind ≠ .warning) :
    cause.isLateDefinition = false := by
  cases cause with
  | lateDefinition name => exact absurd rfl h
  | _ => rfl

/-- Code that is placed where reporting has come to. -/
theorem Coded.emits {s₁ : Session} {st : Statement} {code : Code} {symbols : SymbolTable}
    {ws : List Issue} (h : s.Coded st code symbols ws) (hparse : Statement.parse text line = .ok (some st))
    (hreported : s.Reported s₁)
    (hdiagnostics : ∃ warnings, s₁.diagnostics = s.diagnostics ++ warnings ∧ Warnings line warnings)
    (level : Log.Level) (message : Except Text.TooManyDigits String) :
    s.Emits ((({ s₁ with symbols } : Session).place code st.text).note level message) text line st
      code := by
  rcases h.frame with ⟨hsize, hsymbols⟩
  refine ⟨hparse, hsize, ?_, fun x => ?_, ?_, hdiagnostics, hsymbols⟩
  · simp only [note, place, hreported.pc, hsize]
  · simp only [note, place, hreported.pc, hreported.program, Program.get?_insertCells,
      Code.length_cells]
  · simp only [note, place, hreported.pc, hreported.listing, (Statement.parse_eq_some hparse).2.2]

theorem compileStatement_concludes {st : Statement}
    (hparse : Statement.parse text line = .ok (some st)) :
    s.Concludes text line st (s.compileStatement st) := by
  rcases Statement.parse_eq_some hparse with ⟨-, hline, -⟩
  rcases s.codeFor_plain st with ⟨work, hplain, houtcome, hobstacle⟩
  rcases s.reported_warnings line (s.lateWarnings st.clause ++ work.outcome.2) with
    ⟨hreported, hdiagnostics⟩
  rcases s.warnings_frame st.clause hplain.warnings line with ⟨hwarnings, hlate⟩
  unfold compileStatement
  rw [houtcome, hline]
  dsimp only
  -- of the session in which the warnings are reported, what is stated above is all that counts
  generalize (s.lateWarnings st.clause ++ work.outcome.2).foldl (report line) s = s₁ at *
  generalize (s.lateWarnings st.clause ++ work.outcome.2) = ws at *
  unfold obstacle? at hobstacle
  cases hresult : work.outcome.1 with
  | ok r =>
    rcases r with ⟨code, symbols⟩
    have hcoded : s.Coded st code symbols ws := by
      apply coded_of_codeFor
      change (s.codeFor st).outcome = _
      rw [houtcome, hresult]
    have hemits := hcoded.emits hparse hreported ⟨_, hdiagnostics, hwarnings⟩
    rw [hresult] at hobstacle
    exact ⟨⟨nofun, st, code, hemits _ _⟩, hobstacle, hreported.closed, _, hdiagnostics, hlate⟩
  | error obstacle =>
    rw [hresult] at hobstacle
    cases obstacle with
    | issue cause =>
      have hkind := hplain.rejects cause hresult
      have hrejects := hreported.trans (reported_report s₁ line cause)
      refine ⟨⟨nofun, hrejects.keeps, _, cause, congrArg (· ++ _) hdiagnostics, hwarnings,
        by simpa [Diagnostic.isError] using hkind⟩, hobstacle, hrejects.closed, _,
        (congrArg (· ++ _) hdiagnostics).trans (List.append_assoc _ _ _), ?_⟩
      rw [List.filter_append, hlate]
      simp [isLateDefinition_of_kind hkind]
    | tooManyDigits cause =>
      exact ⟨⟨⟨cause, rfl⟩, hreported.keeps, _, hdiagnostics, hwarnings⟩, hobstacle,
        hreported.closed, _, hdiagnostics, hlate⟩

/-! ## Compiling a line -/

/-- Whether definitions are closed does not matter to what a statement does. -/
theorem describes_of_closed {effect : LineEffect} {closed : Bool} {r : Session × LineOutcome}
    (hne : effect ≠ .blank)
    (h : effect.Describes { s with definitionsClosed := closed } text line r) :
    effect.Describes s text line r := by
  have hkeeps : ∀ {s' : Session}, ({ s with definitionsClosed := closed } : Session).Keeps s' →
      s.Keeps s' := fun h => ⟨h.program, h.pc, h.listing, h.symbols⟩
  cases effect with
  | blank => exact absurd rfl hne
  | emitted =>
    rcases h with ⟨hraised, st, code, he⟩
    exact ⟨hraised, st, code, he.parsed, he.size, he.pc, he.program, he.listing, he.diagnostics,
      he.symbols⟩
  | rejected => exact ⟨h.1, hkeeps h.2.toKeeps, h.2.diagnostics⟩
  | raised => exact ⟨h.1, hkeeps h.2.toKeeps, h.2.diagnostics⟩

theorem statementObstacle?_closed (closed : Bool) (clause : Clause) :
    ({ s with definitionsClosed := closed } : Session).statementObstacle? clause =
      s.statementObstacle? clause := by
  cases clause <;> rfl

/-- What is in the way of the code of a line. -/
def lineObstacle? (s : Session) (text : String) (line : Int) : Option Obstacle :=
  match Statement.parse text line with
  | .error cause => some (.issue (.statement cause))
  | .ok none => none
  | .ok (some st) => s.statementObstacle? st.clause

/-- A statement is compiled after it has closed the definitions, if it does. -/
theorem compileLine_statement {st : Statement} (hparse : Statement.parse text line = .ok (some st)) :
    ({ s with definitionsClosed := s.definitionsClosed || st.clause.opcode != .define } :
      Session).Concludes text line st (s.compileLine text line) := by
  unfold compileLine
  simp only [hparse]
  exact compileStatement_concludes hparse

/-- A line has the effect that its outcome tells of. -/
theorem compileLine_describes (s : Session) (text : String) (line : Int) :
    (s.compileLine text line).2.effect.Describes s text line (s.compileLine text line) := by
  cases hparse : Statement.parse text line with
  | error cause =>
    unfold compileLine
    simp only [hparse]
    exact ⟨(fun _ h => by cases h), (s.reported_report line _).keeps, [], .statement cause,
      by simp [report, note], by simp [Warnings], rfl⟩
  | ok parsed =>
    cases parsed with
    | none =>
      unfold compileLine
      simp only [hparse]
      exact ⟨(fun _ h => by cases h), Statement.words_eq_nil_of_parse hparse, rfl⟩
    | some st =>
      have heffect := (compileLine_statement (s := s) hparse).effect
      refine describes_of_closed (fun hblank => ?_) heffect
      -- a blank line is no statement
      rw [hblank] at heffect
      have hwords := heffect.2.1
      unfold Statement.parse at hparse
      rw [hwords] at hparse
      cases hparse

theorem obstacle?_compileLine (s : Session) (text : String) (line : Int) :
    (s.compileLine text line).2.obstacle? = s.lineObstacle? text line := by
  unfold lineObstacle?
  cases hparse : Statement.parse text line with
  | error cause => simp only [compileLine, hparse, LineOutcome.obstacle?]
  | ok parsed =>
    cases parsed with
    | none => simp only [compileLine, hparse, LineOutcome.obstacle?]
    | some st =>
      rw [(compileLine_statement hparse).obstacle]
      exact statementObstacle?_closed _ _

/-- Every line has an effect. -/
theorem exists_describes (s : Session) (text : String) (line : Int) :
    ∃ effect : LineEffect, effect.Describes s text line (s.compileLine text line) :=
  ⟨_, s.compileLine_describes text line⟩

/-! ## Failing -/

/-- The first operand of the line that has no address is a decimal numeral of more than 4300
digits. -/
def MeetsTooLong (s : Session) (text : String) (line : Int) : Prop :=
  ∃ st token, Statement.parse text line = .ok (some st) ∧ s.Reaches st.clause token ∧
    SymbolTable.IsTooLong token

/-- The first thing that is wrong with a line, other than a numeral that is too long. -/
inductive FailsBy (s : Session) (text : String) (line : Int) : Issue → Prop where
  | statement {cause : StatementError} (hparse : Statement.parse text line = .error cause) :
      FailsBy s text line (.statement cause)
  | operand {st : Statement} {token : String} {cause : Issue}
      (hparse : Statement.parse text line = .ok (some st)) (hreaches : s.Reaches st.clause token)
      (hrefuses : s.symbols.Refuses token cause) : FailsBy s text line cause
  | complaint {st : Statement} {cause : Issue}
      (hparse : Statement.parse text line = .ok (some st))
      (hresolved : ∀ w ∈ st.clause.resolved, ∃ a, s.symbols.Resolves w a)
      (hcomplaint : s.complaint? st.clause = some cause) : FailsBy s text line cause

theorem lineObstacle?_eq_issue_iff {cause : Issue} :
    s.lineObstacle? text line = some (.issue cause) ↔
      s.FailsBy text line cause ∧ cause.IsWritable := by
  unfold lineObstacle?
  constructor
  · intro h
    split at h
    · next cause' hparse =>
      cases h
      exact ⟨.statement hparse, Issue.isWritable_of_parse rfl⟩
    · cases h
    · next st hparse =>
      rcases statementObstacle?_eq_some_iff.mp h with
        ⟨token, hreaches, hrefuses⟩ | ⟨hresolved, cause', hcomplaint, hobstacle⟩
      · exact ⟨.operand hparse hreaches hrefuses,
          Issue.isWritable_of_parse (SymbolTable.Refuses.kind_eq hrefuses)⟩
      · rcases Issue.obstacle_eq_issue hobstacle with ⟨rfl, hwritable⟩
        exact ⟨.complaint hparse hresolved hcomplaint, hwritable⟩
  · rintro ⟨hfails, hwritable⟩
    cases hfails with
    | statement hparse => simp only [hparse]
    | operand hparse hreaches hrefuses =>
      simp only [hparse]
      exact statementObstacle?_eq_some_iff.mpr (.inl ⟨_, hreaches, hrefuses⟩)
    | complaint hparse hresolved hcomplaint =>
      simp only [hparse]
      exact statementObstacle?_eq_some_iff.mpr
        (.inr ⟨hresolved, _, hcomplaint, Issue.obstacle_of_isWritable hwritable⟩)

theorem exists_lineObstacle?_iff :
    (∃ cause, s.lineObstacle? text line = some (.tooManyDigits cause)) ↔
      s.MeetsTooLong text line ∨ ∃ cause, s.FailsBy text line cause ∧ ¬cause.IsWritable := by
  unfold lineObstacle?
  constructor
  · rintro ⟨cause, h⟩
    split at h
    · cases h
    · cases h
    · next st hparse =>
      rcases statementObstacle?_eq_some_iff.mp h with
        ⟨token, hreaches, hraises⟩ | ⟨hresolved, cause', hcomplaint, hobstacle⟩
      · exact .inl ⟨st, token, hparse, hreaches,
          SymbolTable.exists_raises_address_iff.mp ⟨cause, raises_iff.mpr hraises⟩⟩
      · refine .inr ⟨cause', .complaint hparse hresolved hcomplaint, fun hwritable => ?_⟩
        rw [Issue.obstacle_of_isWritable hwritable] at hobstacle
        cases hobstacle
  · rintro (⟨st, token, hparse, hreaches, hlong⟩ | ⟨cause, hfails, hwritable⟩)
    · rcases SymbolTable.exists_raises_address_iff.mpr hlong with ⟨cause, hraises⟩
      simp only [hparse]
      exact ⟨cause, statementObstacle?_eq_some_iff.mpr
        (.inl ⟨token, hreaches, raises_iff.mp hraises⟩)⟩
    · cases hfails with
      | statement hparse => exact absurd (Issue.isWritable_of_parse rfl) hwritable
      | operand hparse hreaches hrefuses =>
        exact absurd (Issue.isWritable_of_parse (SymbolTable.Refuses.kind_eq hrefuses)) hwritable
      | complaint hparse hresolved hcomplaint =>
        simp only [hparse]
        exact ⟨.number, statementObstacle?_eq_some_iff.mpr
          (.inr ⟨hresolved, cause, hcomplaint, if_neg hwritable⟩)⟩

theorem compileLine_eq_rejected_iff {cause : Issue} :
    (s.compileLine text line).2 = .rejected cause ↔
      s.FailsBy text line cause ∧ cause.IsWritable := by
  rw [LineOutcome.eq_rejected_iff, obstacle?_compileLine, lineObstacle?_eq_issue_iff]

theorem compileLine_raises_iff : (∃ cause, (s.compileLine text line).2 = .raised cause) ↔
    s.MeetsTooLong text line ∨ ∃ cause, s.FailsBy text line cause ∧ ¬cause.IsWritable := by
  simp only [LineOutcome.eq_raised_iff, obstacle?_compileLine, exists_lineObstacle?_iff]

theorem definitionsClosed_compileLine (s : Session) (text : String) (line : Int) :
    (s.compileLine text line).1.definitionsClosed = true ↔ s.definitionsClosed = true ∨
      ∃ st, Statement.parse text line = .ok (some st) ∧ st.clause.opcode ≠ .define := by
  cases hparse : Statement.parse text line with
  | error cause =>
    unfold compileLine
    simp [hparse, report, note]
  | ok parsed =>
    cases parsed with
    | none =>
      unfold compileLine
      simp [hparse]
    | some st =>
      rw [(compileLine_statement hparse).closed]
      simp

/-- The warnings that a line gets for defining a name too late. -/
def lateDiagnostics (s : Session) (text : String) (line : Int) : List Diagnostic :=
  match Statement.parse text line with
  | .ok (some ⟨.define name _, _, _⟩) =>
      if s.definitionsClosed then [⟨.lateDefinition name, line⟩] else []
  | _ => []

theorem late_compileLine (s : Session) (text : String) (line : Int) :
    ∃ new, (s.compileLine text line).1.diagnostics = s.diagnostics ++ new ∧
      new.filter (·.issue.isLateDefinition) = s.lateDiagnostics text line := by
  unfold lateDiagnostics
  cases hparse : Statement.parse text line with
  | error cause =>
    unfold compileLine
    simp only [hparse]
    exact ⟨[⟨.statement cause, line⟩], rfl, rfl⟩
  | ok parsed =>
    cases parsed with
    | none =>
      unfold compileLine
      simp only [hparse]
      exact ⟨[], (List.append_nil _).symm, rfl⟩
    | some st =>
      rcases (compileLine_statement (s := s) hparse).late with ⟨new, hnew, hlate⟩
      refine ⟨new, hnew, ?_⟩
      rw [hlate]
      rcases st with ⟨clause, _, _⟩
      -- a definition closes nothing, so it is judged by what was closed before the line
      cases clause with
      | define name token =>
        simp only [lateWarnings, Clause.opcode, bne_self_eq_false, Bool.or_false]
        split <;> rfl
      | operation op => rfl

/-! ## The numbers of lines -/

/-- What is wrong with a line can be put into words. Where it is the words of the line, the number of
the line is among them. -/
def IsReportable (line : Int) (cause : Issue) : Prop :=
  cause.IsWritable ∧ (cause.kind = .parse → Text.IsWritable line)

theorem compileLineAt_cases (s : Session) (text : String) (line : Int) :
    (∃ cause, (s.compileLine text line).2 = .rejected cause ∧ cause.kind = .parse ∧
      ¬Text.IsWritable line ∧ s.compileLineAt text line =
        ({ (s.compileLine text line).1 with
          diagnostics := (s.compileLine text line).1.diagnostics.dropLast }, .raised .number)) ∨
    (∀ cause, (s.compileLine text line).2 = .rejected cause → cause.kind = .parse →
      Text.IsWritable line) ∧ s.compileLineAt text line = s.compileLine text line := by
  unfold compileLineAt
  cases s.compileLine text line with
  | mk s' outcome =>
    cases outcome with
    | rejected cause =>
      by_cases h : cause.kind = .parse ∧ ¬Text.IsWritable line
      · exact .inl ⟨cause, rfl, h.1, h.2, if_pos h⟩
      · refine .inr ⟨?_, if_neg h⟩
        rintro cause' ⟨⟩ hkind
        exact not_not.mp fun hline => h ⟨hkind, hline⟩
    | blank | emitted _ | raised _ => exact .inr ⟨nofun, rfl⟩

theorem compileLineAt_describes (s : Session) (text : String) (line : Int) :
    (s.compileLineAt text line).2.effect.Describes s text line (s.compileLineAt text line) := by
  have hdescribes := s.compileLine_describes text line
  rcases s.compileLineAt_cases text line with ⟨cause, houtcome, -, -, hat⟩ | ⟨-, hat⟩
  · -- the report is taken back, and the warnings before it are left
    rw [houtcome] at hdescribes
    rcases hdescribes with ⟨-, hkeeps, warnings, _, hdiagnostics, hwarnings, -⟩
    rw [hat]
    refine ⟨⟨.number, rfl⟩, ⟨hkeeps.program, hkeeps.pc, hkeeps.listing, hkeeps.symbols⟩, warnings,
      ?_, hwarnings⟩
    rw [hdiagnostics, List.dropLast_concat]
  · rw [hat]
    exact hdescribes

theorem compileLineAt_eq_rejected_iff {cause : Issue} :
    (s.compileLineAt text line).2 = .rejected cause ↔
      s.FailsBy text line cause ∧ IsReportable line cause := by
  rw [IsReportable, ← and_assoc, ← compileLine_eq_rejected_iff]
  rcases s.compileLineAt_cases text line with ⟨cause', houtcome, hkind, hline, hat⟩ | ⟨hline, hat⟩
  · rw [hat, houtcome]
    refine ⟨nofun, ?_⟩
    rintro ⟨⟨⟩, hwritable⟩
    exact absurd (hwritable hkind) hline
  · rw [hat]
    exact ⟨fun h => ⟨h, hline cause h⟩, And.left⟩

theorem compileLineAt_raises_iff : (∃ cause, (s.compileLineAt text line).2 = .raised cause) ↔
    s.MeetsTooLong text line ∨
      ∃ cause, s.FailsBy text line cause ∧ ¬IsReportable line cause := by
  rcases s.compileLineAt_cases text line with ⟨cause, houtcome, hkind, hline, hat⟩ | ⟨hline, hat⟩
  · rw [hat]
    refine ⟨fun _ => .inr ⟨cause, (compileLine_eq_rejected_iff.mp houtcome).1, fun h => hline (h.2 hkind)⟩,
      fun _ => ⟨.number, rfl⟩⟩
  · rw [hat, compileLine_raises_iff]
    refine or_congr_right (exists_congr fun cause => and_congr_right fun hfails => not_congr ?_)
    exact ⟨fun h => ⟨h, hline cause (compileLine_eq_rejected_iff.mpr ⟨hfails, h⟩)⟩, And.left⟩

/-- A report that is taken back is not that of a late definition. -/
theorem late_compileLineAt (s : Session) (text : String) (line : Int) :
    ∃ new, (s.compileLineAt text line).1.diagnostics = s.diagnostics ++ new ∧
      new.filter (·.issue.isLateDefinition) = s.lateDiagnostics text line := by
  rcases s.late_compileLine text line with ⟨new, hnew, hlate⟩
  have hdescribes := s.compileLine_describes text line
  rcases s.compileLineAt_cases text line with ⟨cause, houtcome, -, -, hat⟩ | ⟨-, hat⟩
  · rw [houtcome] at hdescribes
    rcases hdescribes with ⟨-, -, warnings, cause', hdiagnostics, -, herror⟩
    have hsplit : new = warnings ++ [⟨cause', line⟩] := by
      rw [hnew, List.append_assoc] at hdiagnostics
      exact List.append_cancel_left hdiagnostics
    rw [hat]
    refine ⟨warnings, ?_, ?_⟩
    · rw [hdiagnostics, List.dropLast_concat]
    · have hkind : cause'.kind ≠ .warning := by simpa [Diagnostic.isError] using herror
      rw [← hlate, hsplit, List.filter_append]
      simp [isLateDefinition_of_kind hkind]
  · rw [hat]
    exact ⟨new, hnew, hlate⟩

end Session

end Subleq
