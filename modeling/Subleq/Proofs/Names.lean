import Mathlib
import Subleq.Proofs.Allocation
import Subleq.Proofs.Literals

/-!
# Subleq.Proofs.Names — names and literals

Whether a token is a literal is asked twice, when a name is defined and when an operand is resolved.
What a name must not look like is said here by its characters alone: it must be no decimal numeral
(`Text.WritesDecimal`), and it must not begin with a mark (`Text.IsMarked`). Of words, the check
refuses exactly these and the name of the port (`nameError?_eq_none_iff_of_isWord`).

So no operand mistakes a variable for a literal, or the other way round (`SymbolTable.Apart`),
whatever lines are compiled in a session (`Named.compileLine`, `names_apart`). The check lets pass a
name that begins with a minus and a digit and goes on with something else (`not_always_unlike`).
-/

namespace Subleq

open Layout

/-! ## How literals begin -/

namespace Text

variable {cs ws : List Char} {v : Int}

/-- The text begins with the mark of binary or of hexadecimal digits. -/
def IsMarked (cs : List Char) : Prop := ∃ c ∈ cs.head?, c = binaryMark ∨ c = hexMark

/-- The text begins with a minus and a decimal digit. -/
def BeginsNegative (cs : List Char) : Prop := ∃ c rest, cs = '-' :: c :: rest ∧ isDigit c = true

/-- The text begins in one of the ways in which only literals should begin. -/
def BeginsAsLiteral (cs : List Char) : Prop := IsMarked cs ∨ BeginsNegative cs

/-- What a line is cut into are words. -/
theorem isWord_of_mem_words (h : ws ∈ words cs) : IsWord ws := by
  have hall : ∀ {row line : List _}, Spaced row line → ∀ w ∈ row, IsWord w := by
    intro row line hspaced
    induction hspaced with
    | blank hbs => simp
    | word hbs hw hends hrest ih =>
      intro w hmem
      rcases List.mem_cons.mp hmem with rfl | hmem
      · exact hw
      · exact ih w hmem
  exact hall (spaced_iff.mpr rfl) ws h

end Text

open Text

/-- The check of names asks for the literal forms that the characters of a word show. -/
theorem nameError?_eq_none_iff_of_isWord {name : String} (h : IsWord name.toList) :
    nameError? name = none ↔ name ≠ ioPortName ∧ (¬∃ v, WritesDecimal name.toList v) ∧
      ¬IsMarked name.toList := by
  rw [nameError?_eq_none_iff, IsGoodName]
  apply and_congr_right
  intro _
  have hdecimal : (¬∃ v, WritesDecimal name.toList v) ↔ Decimal.parse? name.toList = none := by
    rw [Option.eq_none_iff_forall_ne_some, not_exists]
    constructor
    · intro hnot numeral hnumeral
      exact hnot _ (h.writesDecimal_iff.mpr ⟨numeral, hnumeral, rfl⟩)
    · rintro hnone v hv
      obtain ⟨numeral, hnumeral, -⟩ := h.writesDecimal_iff.mp hv
      exact hnone numeral hnumeral
  rw [hdecimal]
  constructor
  · intro hnone
    constructor
    · rw [Option.eq_none_iff_forall_ne_some]
      intro numeral hnumeral
      rw [Literal.ofToken?_eq_decimal_iff.mpr hnumeral] at hnone
      cases hnone
    · -- after a mark there would be digits, whatever they are
      rintro ⟨c, hc, hmark⟩
      obtain ⟨digits, hdigits⟩ : ∃ digits, name.toList = c :: digits :=
        List.head?_eq_some_iff.mp hc
      rcases hmark with rfl | rfl
      · rw [Literal.ofToken?_binary hdigits] at hnone
        cases hnone
      · rw [Literal.ofToken?_hex hdigits] at hnone
        cases hnone
  · rintro ⟨hnone, hmark⟩
    apply Literal.ofToken?_name hnone
    intro c hc
    constructor
    · intro hbinary
      exact hmark ⟨c, hc, .inl hbinary⟩
    · intro hhex
      exact hmark ⟨c, hc, .inr hhex⟩

/-! ## Tables -/

namespace SymbolTable

open LineWork

variable {t : SymbolTable} {token : String}

/-- Names and literals do not overlap in the table: a variable's name means the variable, in either
place where an operand can stand, and what is no name means what it means where there are no
variables. -/
structure Apart (t : SymbolTable) : Prop where
  address : ∀ v ∈ t.variables, (t.address v.name).outcome = (.ok v.address, [])
  value : ∀ v ∈ t.variables, (t.value v.name).outcome = (.ok v.address, [])
  refused : ∀ token, nameError? token ≠ none → (∀ v ∈ t.variables, v.name ≠ token) ∧
    t.address token = ({} : SymbolTable).address token ∧
    t.value token = ({} : SymbolTable).value token

/-- The address of a token that is no name does not come from a variable. -/
theorem address_of_nameError (h : nameError? token ≠ none) (t t' : SymbolTable) :
    t.address token = t'.address token := by
  by_cases hliteral : (Literal.ofToken? token).isSome
  · exact address_literal hliteral t t'
  · -- if it is no literal either, it is the name of the port
    have hport : token = ioPortName := by
      by_contra hother
      apply h
      rw [nameError?_eq_none_iff]
      exact ⟨hother, by simpa using hliteral⟩
    subst hport
    have hnone : Literal.ofToken? ioPortName = none := by simpa using hliteral
    simp only [SymbolTable.address, hnone, lookup?, if_true]

theorem value_of_nameError (h : nameError? token ≠ none) (t t' : SymbolTable) :
    t.value token = t'.value token := by
  unfold SymbolTable.value
  split
  · rfl
  · exact address_of_nameError h t t'

theorem Allotted.apart (ht : t.Allotted) : t.Apart := by
  have hform : ∀ v ∈ t.variables, Literal.ofToken? v.name = none := by
    intro v hv
    exact (nameError?_eq_none_iff.mp (ht.named v hv)).2
  have haddress : ∀ v ∈ t.variables, (t.address v.name).outcome = (.ok v.address, []) := by
    intro v hv
    rw [outcome_name (hform v hv), ht.lookup?_name hv]
  constructor
  case address => exact haddress
  case value =>
    intro v hv
    unfold SymbolTable.value
    rw [hform v hv]
    exact haddress v hv
  case refused =>
    intro token htoken
    refine ⟨?_, address_of_nameError htoken t {}, value_of_nameError htoken t {}⟩
    rintro v hv rfl
    exact htoken (ht.named v hv)

/-- A table without variables meets the invariant of tables, whatever its bounds. -/
theorem allotted_of_nil (h : t.variables = []) : t.Allotted := by
  constructor
  case address => simp [h]
  case distinct => simp [h]
  case named => simp [h]
  case room => simp [h]

end SymbolTable

/-! ## Lines -/

/-- The operands of a statement are words. -/
theorem Statement.isWord_of_mem_operands {text word : String} {line : Int} {st : Statement}
    (h : parse text line = .ok (some st)) (hmem : word ∈ st.clause.operands) :
    IsWord word.toList := by
  obtain ⟨comment, hwords⟩ := words_of_parse h
  have hline : word ∈ (words text.toList).map String.ofList := by
    rw [hwords]
    exact List.mem_cons_of_mem _ (List.mem_append_left comment hmem)
  obtain ⟨cs, hcs, rfl⟩ := List.mem_map.mp hline
  rw [String.toList_ofList]
  exact isWord_of_mem_words hcs

/-- The line is a definition of the name. -/
def IsDefinitionOf (name : String) (line : Int × String) : Prop :=
  ∃ st token, Statement.parse line.2 line.1 = .ok (some st) ∧ st.clause = .define name token

/-- A name that a line defines is one of its words. -/
theorem IsDefinitionOf.isWord {name : String} {line : Int × String} (h : IsDefinitionOf name line) :
    IsWord name.toList := by
  obtain ⟨st, token, hparse, hclause⟩ := h
  apply Statement.isWord_of_mem_operands hparse
  rw [hclause]
  exact List.mem_cons_self ..

/-- A line defines one name at most. -/
theorem IsDefinitionOf.unique {name name' : String} {line : Int × String}
    (h : IsDefinitionOf name line) (h' : IsDefinitionOf name' line) : name = name' := by
  obtain ⟨st, token, hparse, hclause⟩ := h
  obtain ⟨st', token', hparse', hclause'⟩ := h'
  rw [hparse] at hparse'
  cases hparse'
  rw [hclause] at hclause'
  cases hclause'
  rfl

namespace Session

variable {s : Session} {lines : List (Int × String)}

/-- The session after lines have been compiled one after the other, whatever became of each. -/
def afterLines (s : Session) (lines : List (Int × String)) : Session :=
  lines.foldl (fun s line => (s.compileLine line.2 line.1).1) s

/-- The table is in order, and every variable has been defined by one of the lines. -/
structure Named (lines : List (Int × String)) (s : Session) : Prop where
  allotted : s.symbols.Allotted
  defined : ∀ v ∈ s.symbols.variables, ∃ line ∈ lines, IsDefinitionOf v.name line

/-- A line leaves the table as it is, or it is a definition that succeeds. -/
theorem symbols_compileLine (s : Session) (line : Int × String) :
    (s.compileLine line.2 line.1).1.symbols = s.symbols ∨
      ∃ name pattern n v, IsDefinitionOf name line ∧
        s.symbols.define name pattern n = .ok (v, (s.compileLine line.2 line.1).1.symbols) := by
  rcases s.compileLine_cases line.2 line.1 with hreported | ⟨st, hparse, s₀, rfl, hcases⟩
  · exact .inl hreported.symbols
  · rcases hcases with hreported | ⟨code, hplaced⟩
    · exact .inl hreported.symbols
    · obtain ⟨warnings, hcoded, -⟩ := hplaced.coded
      rcases hcoded.kind with ⟨name, token, pattern, v, hclause, -, hdefine, -, -⟩ |
        ⟨-, -, -, -, -, hsymbols⟩
      · exact .inr ⟨name, pattern, st.line, v, ⟨st, token, hparse, hclause⟩, hdefine⟩
      · exact .inl hsymbols

/-- One more line adds at most the name that it defines. -/
theorem Named.compileLine (h : Named lines s) (line : Int × String) :
    Named (lines ++ [line]) (s.compileLine line.2 line.1).1 := by
  have hbefore : ∀ v ∈ s.symbols.variables, ∃ l ∈ lines ++ [line], IsDefinitionOf v.name l := by
    intro v hv
    obtain ⟨l, hl, hdefines⟩ := h.defined v hv
    exact ⟨l, List.mem_append_left _ hl, hdefines⟩
  rcases symbols_compileLine s line with hsame | ⟨name, pattern, n, v, hdefines, hdefine⟩
  · constructor
    · rw [hsame]
      exact h.allotted
    · rw [hsame]
      exact hbefore
  · obtain ⟨⟨-, hname⟩, hvariables, -, -⟩ := SymbolTable.define_frame hdefine
    constructor
    · exact h.allotted.define hdefine
    · intro w hw
      rcases hvariables w hw with rfl | hold
      · exact ⟨line, by simp, hname ▸ hdefines⟩
      · exact hbefore w hold

theorem Named.afterLines {before : List (Int × String)} (h : Named before s)
    (lines : List (Int × String)) : Named (before ++ lines) (s.afterLines lines) := by
  induction lines generalizing s before with
  | nil => simpa [Session.afterLines] using h
  | cons line lines ih =>
    have hrest := ih (h.compileLine line)
    rwa [List.append_assoc] at hrest

/-- Whatever lines are compiled in a session that had no variables, its names do not overlap with
literals. They are words other than the port's name that are no numerals and begin with no mark; and
they begin with a minus and a digit only where a line defines such a name that is no numeral. -/
theorem names_apart (hfresh : s.symbols.variables = []) (lines : List (Int × String)) :
    (s.afterLines lines).symbols.Apart ∧
    (∀ v ∈ (s.afterLines lines).symbols.variables,
      IsWord v.name.toList ∧ v.name ≠ ioPortName ∧ (¬∃ n, WritesDecimal v.name.toList n) ∧
        ¬IsMarked v.name.toList ∧ ∃ line ∈ lines, IsDefinitionOf v.name line) ∧
    ((∀ line ∈ lines, ∀ name, IsDefinitionOf name line → BeginsNegative name.toList →
        ∃ n, WritesDecimal name.toList n) →
      ∀ v ∈ (s.afterLines lines).symbols.variables, ¬BeginsAsLiteral v.name.toList) := by
  have hstart : Named [] s := ⟨SymbolTable.allotted_of_nil hfresh, by simp [hfresh]⟩
  have hnamed : Named lines (s.afterLines lines) := hstart.afterLines lines
  have hnames : ∀ v ∈ (s.afterLines lines).symbols.variables,
      IsWord v.name.toList ∧ v.name ≠ ioPortName ∧ (¬∃ n, WritesDecimal v.name.toList n) ∧
        ¬IsMarked v.name.toList ∧ ∃ line ∈ lines, IsDefinitionOf v.name line := by
    intro v hv
    obtain ⟨line, hline, hdefines⟩ := hnamed.defined v hv
    have hword := hdefines.isWord
    obtain ⟨hport, hnumeral, hmark⟩ :=
      (nameError?_eq_none_iff_of_isWord hword).mp (hnamed.allotted.named v hv)
    exact ⟨hword, hport, hnumeral, hmark, line, hline, hdefines⟩
  refine ⟨hnamed.allotted.apart, hnames, ?_⟩
  intro hlines v hv hbegins
  obtain ⟨-, -, hnumeral, hmark, line, hline, hdefines⟩ := hnames v hv
  rcases hbegins with hmarked | hnegative
  · exact hmark hmarked
  · exact hnumeral (hlines line hline v.name hdefines hnegative)

/-- Defines a name that begins with a minus, asks for a numeral to be defined, and uses the name. -/
def dashed : List (Int × String) := [(1, "DEF -a 3"), (2, "DEF -5 1"), (3, "DEF b -a")]

theorem names_apart_dashed : ({} : Session).symbols.variables = [] ∧
    (({} : Session).afterLines dashed).symbols.variables = [⟨"-a", 249, 3, 1⟩, ⟨"b", 248, 249, 3⟩] ∧
    (({} : Session).afterLines dashed).symbols.Apart ∧
    ∀ v ∈ (({} : Session).afterLines dashed).symbols.variables, ¬BeginsAsLiteral v.name.toList := by
  have hvariables : (({} : Session).afterLines dashed).symbols.variables =
      [⟨"-a", 249, 3, 1⟩, ⟨"b", 248, 249, 3⟩] := by decide +kernel
  have hlines : ∀ line ∈ dashed, ∀ name, IsDefinitionOf name line →
      BeginsNegative name.toList → ∃ n, WritesDecimal name.toList n := by
    have hfirst : IsDefinitionOf "-a" (1, "DEF -a 3") :=
      ⟨⟨.define "-a" "3", 1, "DEF -a 3"⟩, "3", by decide +kernel, rfl⟩
    have hsecond : IsDefinitionOf "-5" (2, "DEF -5 1") :=
      ⟨⟨.define "-5" "1", 2, "DEF -5 1"⟩, "1", by decide +kernel, rfl⟩
    have hthird : IsDefinitionOf "b" (3, "DEF b -a") :=
      ⟨⟨.define "b" "-a", 3, "DEF b -a"⟩, "-a", by decide +kernel, rfl⟩
    intro line hline name hdefines hnegative
    simp only [dashed, List.mem_cons, List.not_mem_nil, or_false] at hline
    rcases hline with rfl | rfl | rfl
    · rw [hdefines.unique hfirst] at hnegative
      obtain ⟨c, rest, heq, hdigit⟩ := hnegative
      cases heq
      cases hdigit
    · rw [hdefines.unique hsecond]
      exact ⟨-5, .minus (writes_iff.mpr ⟨[5], by decide, by decide, rfl⟩)⟩
    · rw [hdefines.unique hthird] at hnegative
      obtain ⟨c, rest, heq, -⟩ := hnegative
      cases heq
  obtain ⟨hapart, -, hunlike⟩ := names_apart (s := {}) rfl dashed
  exact ⟨rfl, hvariables, hapart, hunlike hlines⟩

/-- A name can begin with a minus and a digit. -/
theorem not_always_unlike : ¬∀ (lines : List (Int × String)),
    ∀ v ∈ (({} : Session).afterLines lines).symbols.variables, ¬BeginsAsLiteral v.name.toList := by
  intro hall
  have hvariables : (({} : Session).afterLines [(1, "DEF -5a 3")]).symbols.variables =
      [⟨"-5a", 249, 3, 1⟩] := by decide +kernel
  have hnot := hall [(1, "DEF -5a 3")] ⟨"-5a", 249, 3, 1⟩ (by rw [hvariables]; simp)
  exact hnot (.inr ⟨'5', ['a'], by decide, by decide⟩)

end Session

end Subleq
