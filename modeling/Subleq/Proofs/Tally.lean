import Mathlib
import Subleq.Proofs.Canonical
import Subleq.Proofs.Reading
import Subleq.Proofs.Simulation

/-!
# Subleq.Proofs.Tally — what there is of a compilation to be counted

A line that is not blank either has its entry in the listing or is skipped, with an error of its own
(`sorted_compile`); so the errors are as many as the lines without an entry. The symbol table has
one variable for each name that an entry defines (`size_symbols`), and the program store one cell
for each address before the program counter.
-/

namespace Subleq

/-- Rows of lines in which each line that is not blank has an entry, by its text, or is skipped, by
its number. -/
inductive Sorted : List (Int × String) → List String → List Int → Prop where
  | nil : Sorted [] [] []
  | blank {line : Int} {text : String} {lines : List (Int × String)} {entries : List String}
      {skipped : List Int} (h : Text.words text.toList = []) (rest : Sorted lines entries skipped) :
      Sorted ((line, text) :: lines) entries skipped
  | entry {line : Int} {text : String} {lines : List (Int × String)} {entries : List String}
      {skipped : List Int} (h : Text.words text.toList ≠ []) (rest : Sorted lines entries skipped) :
      Sorted ((line, text) :: lines) (String.ofList (Text.trimEnd text.toList) :: entries) skipped
  | skip {line : Int} {text : String} {lines : List (Int × String)} {entries : List String}
      {skipped : List Int} (h : Text.words text.toList ≠ []) (rest : Sorted lines entries skipped) :
      Sorted ((line, text) :: lines) entries (line :: skipped)

/-- As many lines are skipped as there are without an entry. -/
theorem Sorted.length_eq {lines : List (Int × String)} {entries : List String}
    {skipped : List Int} (h : Sorted lines entries skipped) :
    skipped.length + entries.length =
      (lines.filter fun line => Text.words line.2.toList ≠ []).length := by
  induction h with
  | nil => rfl
  | blank hwords rest ih => simpa [hwords] using ih
  | entry hwords rest ih =>
    simp only [List.filter_cons, hwords, ne_eq, not_false_eq_true, decide_true, if_true,
      List.length_cons] at ih ⊢
    omega
  | skip hwords rest ih =>
    simp only [List.filter_cons, hwords, ne_eq, not_false_eq_true, decide_true, if_true,
      List.length_cons] at ih ⊢
    omega

/-- Lines that are compiled are sorted by it, since an error is the only one of its line. -/
theorem InStep.sorted {lines : List (Int × String)} {sts : List Statement}
    {errs : List (Int × StatementError)} {ds : List Diagnostic} {entries : List String}
    (h : InStep lines sts errs ds entries) :
    Sorted lines entries ((ds.filter (·.isError)).map (·.line)) := by
  induction h with
  | nil => exact .nil
  | blank hparse rest ih => exact .blank (Statement.words_eq_nil_of_parse hparse) ih
  | error hparse rest ih =>
    rw [List.filter_cons_of_pos rfl]
    exact .skip (Statement.words_ne_nil (by rw [hparse]; nofun)) ih
  | rejected hparse hwarnings herror rest ih =>
    rw [List.append_assoc, List.filter_append, hwarnings.filter_isError, List.nil_append,
      List.singleton_append, List.filter_cons_of_pos (by exact herror)]
    exact .skip (Statement.words_ne_nil (by rw [hparse]; nofun)) ih
  | emitted hparse hwarnings rest ih =>
    rw [List.filter_append, hwarnings.filter_isError, List.nil_append,
      (Statement.parse_eq_some hparse).2.2]
    exact .entry (Statement.words_ne_nil (by rw [hparse]; nofun)) ih

namespace Session

variable {s : Session}

/-- The names that the entries of the listing define, as often as they do. -/
def definedNames (s : Session) : List String :=
  s.listing.filterMap fun p =>
    match p.clause? with
    | some (.define name _) => some name
    | _ => none

/-! ## Lines -/

/-- Of a whole source text each line that is not blank is in the listing or among the errors. -/
theorem sorted_compile {source : String} (h : compile {} source = (s, none)) :
    ∃ entries, s.listing.map (·.source) = "preamble" :: entries ∧
      Sorted (Text.numberedLines source) entries (s.errors.map (·.line)) := by
  rcases inStep_compile h with ⟨ps, hlisting, hstep⟩
  refine ⟨ps.map (·.source), ?_, hstep.sorted⟩
  rw [hlisting]
  rfl

/-! ## Names -/

/-- The names that are defined are the names of the variables. -/
theorem Sound.mem_definedNames_iff (h : s.Sound) (name : String) :
    name ∈ s.definedNames ↔ name ∈ s.symbols.variables.map (·.name) := by
  unfold definedNames
  rw [List.mem_filterMap, List.mem_map]
  constructor
  · rintro ⟨p, hp, hname⟩
    rcases h.eq_or_realizes hp with rfl | ⟨clause, hclause, hreal⟩
    · rw [clause?_preamble] at hname
      cases hname
    · rw [hclause] at hname
      generalize p.code = code at hreal
      cases hreal with
      | define hgood hlookup hvalue =>
        cases hname
        rcases SymbolTable.lookup?_cases hlookup with ⟨rfl, -⟩ | ⟨v, hv, hvname, -⟩
        · cases hgood
        · exact ⟨v, hv, hvname⟩
      | operation hop => cases hname
  · rintro ⟨v, hv, rfl⟩
    rcases h.defined v hv with ⟨p, hp, value, hcode⟩
    refine ⟨p, hp, ?_⟩
    rcases h.eq_or_realizes hp with rfl | ⟨clause, hclause, hreal⟩
    · cases hcode
    · rw [hcode] at hreal
      rw [hclause]
      generalize ha : v.address = a at hreal
      cases hreal with
      | define hgood hlookup hvalue =>
        -- the name that is defined there has the same address, so it is the same variable
        rcases SymbolTable.lookup?_cases hlookup with ⟨rfl, -⟩ | ⟨w, hw, hwname, hwa⟩
        · cases hgood
        · have hsame := h.standard.eq_of_address hw hv (hwa.trans ha.symm)
          rw [← hwname, hsame]

/-- There are as many variables as there are different names that are defined. -/
theorem Sound.size_symbols (h : s.Sound) : s.symbols.size = s.definedNames.toFinset.card := by
  have hset : s.definedNames.toFinset = (s.symbols.variables.map (·.name)).toFinset := by
    ext name
    rw [List.mem_toFinset, List.mem_toFinset, h.mem_definedNames_iff]
  rw [hset, List.toFinset_card_of_nodup h.standard.distinct, List.length_map, SymbolTable.size]

/-! ## Cells -/

theorem Sound.wellFormed (h : s.Sound) : s.program.WellFormed := by
  intro a c hc
  have hmem := (h.isSome_iff a).mp (by rw [hc]; rfl)
  have hfits := h.fits a
  rw [Program.fetch, hc] at hfits
  have hroom := h.room
  simp only [Layout.programLimit] at hroom
  exact ⟨by omega, hfits⟩

end Session

end Subleq
