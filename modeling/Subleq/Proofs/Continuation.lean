import Mathlib
import Subleq.Proofs.Lines
import Subleq.Proofs.Outcomes

/-!
# Subleq.Proofs.Continuation — source that is added at the end

What has been compiled stays when compiling goes on (`Session.Continues`): a line adds to the listing
and to the diagnostics, places its cells behind those that are there, and leaves every variable where
it is. Since text in a new line changes no line before it, a longer source continues what its beginning
comes to (`compile_append`).
-/

namespace Subleq

/-! ## Lines -/

namespace Text

/-- The lines of a text keep their numbers when it goes on in a new line. -/
theorem numberedLines_append (text more : String) :
    ∃ rest, numberedLines (text ++ "\n" ++ more) = numberedLines text ++ rest := by
  rcases lines_append text.toList more.toList with ⟨rest, hrest⟩
  have hlist : (text ++ "\n" ++ more).toList = text.toList ++ '\n' :: more.toList := by simp
  rw [numberedLines_eq, numberedLines_eq, hlist, hrest, numberFrom_append]
  exact ⟨_, rfl⟩

/-- The lines are numbered in increasing order. -/
theorem numberedLines_pairwise (text : String) : (numberedLines text).Pairwise (·.1 < ·.1) := by
  rw [numberedLines_eq]
  exact (numberFrom_pairwise 1 _).1

end Text

/-! ## Variables and their cells -/

namespace SymbolTable

/-- The names of the variables with their cells, in order. -/
def cells (t : SymbolTable) : List (String × Int) := t.variables.map fun v => (v.name, v.address)

/-- A definition gives a new variable a cell at most. -/
theorem cells_prefix_define {t t' : SymbolTable} (ht : t.Allotted) {name : String}
    {value line : Int} {v : Variable} (h : t.define name value line = .ok (v, t')) :
    t.cells <+: t'.cells := by
  rcases define_cases h with ⟨_, ⟨old, hold, hv, rfl⟩ | ⟨_, _, _, rfl⟩⟩
  · rcases find?_mem hold with ⟨hmem, hname⟩
    have hsame : (replace v t.variables).map (fun w => (w.name, w.address)) = t.cells := by
      unfold replace cells
      rw [List.map_map]
      apply List.map_congr_left
      intro w hw
      simp only [Function.comp]
      split
      · next hwname =>
        -- the entry that is replaced is the one found, and it keeps its cell
        rw [hv] at hwname ⊢
        rw [ht.eq_of_name hw hmem hwname]
      · rfl
    exact hsame ▸ List.prefix_rfl
  · unfold cells
    rw [List.map_append]
    exact List.prefix_append _ _

theorem exists_of_cells_prefix {t t' : SymbolTable} (h : t.cells <+: t'.cells) (k : Nat)
    (v : Variable) (hv : t.variables[k]? = some v) :
    ∃ v', t'.variables[k]? = some v' ∧ v'.name = v.name ∧ v'.address = v.address := by
  have hcell : t.cells[k]? = some (v.name, v.address) := by simp [cells, hv]
  have hcell' : t'.cells[k]? = some (v.name, v.address) := by
    rcases h with ⟨more, hmore⟩
    rw [← hmore, List.getElem?_append_left (List.getElem?_eq_some_iff.mp hcell).1, hcell]
  unfold cells at hcell'
  rw [List.getElem?_map, Option.map_eq_some_iff] at hcell'
  rcases hcell' with ⟨v', hv', heq⟩
  rcases Prod.mk.inj heq with ⟨hname, haddress⟩
  exact ⟨v', hv', hname, haddress⟩

end SymbolTable

/-! ## One line -/

namespace Session

variable {s s' s'' : Session}

/-- What a line is reported for names the line. -/
theorem compileLine_diagnostics (s : Session) (text : String) (line : Int) :
    ∃ new, (s.compileLine text line).1.diagnostics = s.diagnostics ++ new ∧
      ∀ d ∈ new, d.line = line := by
  rcases s.exists_describes text line with ⟨effect, heffect⟩
  cases effect with
  | blank =>
    rcases heffect with ⟨-, -, hsame⟩
    exact ⟨[], by rw [hsame, List.append_nil], by simp⟩
  | emitted =>
    rcases heffect with ⟨-, st, code, hemits⟩
    rcases hemits.diagnostics with ⟨warnings, hdiagnostics, hwarnings⟩
    exact ⟨warnings, hdiagnostics, hwarnings.line_eq⟩
  | rejected =>
    rcases heffect with ⟨-, hrejects⟩
    rcases hrejects.diagnostics with ⟨warnings, cause, hdiagnostics, hwarnings, -⟩
    refine ⟨warnings ++ [⟨cause, line⟩], ?_, hwarnings.line_eq_concat cause⟩
    rw [hdiagnostics, List.append_assoc]
  | raised =>
    rcases heffect with ⟨-, hraises⟩
    rcases hraises.diagnostics with ⟨warnings, hdiagnostics, hwarnings⟩
    exact ⟨warnings, hdiagnostics, hwarnings.line_eq⟩

/-- All that is compiled is as before, and more may have been added behind it. -/
structure Continues (s s' : Session) : Prop where
  pc : s.pc ≤ s'.pc
  program : ∀ x < s.pc, s'.program[x]? = s.program[x]?
  listing : s.listing <+: s'.listing
  diagnostics : s.diagnostics <+: s'.diagnostics
  cells : s.symbols.cells <+: s'.symbols.cells

theorem Continues.refl (s : Session) : s.Continues s :=
  ⟨Int.le_refl _, fun _ _ => rfl, List.prefix_rfl, List.prefix_rfl, List.prefix_rfl⟩

theorem Continues.trans (h : s.Continues s') (h' : s'.Continues s'') : s.Continues s'' := by
  constructor
  case pc => exact Int.le_trans h.pc h'.pc
  case program =>
    intro x hx
    rw [h'.program x (Int.lt_of_lt_of_le hx h.pc), h.program x hx]
  case listing => exact h.listing.trans h'.listing
  case diagnostics => exact h.diagnostics.trans h'.diagnostics
  case cells => exact h.cells.trans h'.cells

/-- The variables have cells of their own, and there is room behind what is placed. This holds in any
layout of the data store. -/
structure Extensible (s : Session) : Prop where
  allotted : s.symbols.Allotted
  beyond : ∀ x, s.pc ≤ x → s.program[x]? = none

theorem Reported.continues (h : s.Reported s') (hdiagnostics : s.diagnostics <+: s'.diagnostics) :
    s.Continues s' := by
  constructor
  case pc => exact Int.le_of_eq h.pc.symm
  case program =>
    intro x _
    rw [h.program]
  case listing => exact h.listing ▸ List.prefix_rfl
  case diagnostics => exact hdiagnostics
  case cells => exact h.symbols ▸ List.prefix_rfl

theorem Reported.extensible (h : s.Reported s') (hs : s.Extensible) : s'.Extensible := by
  constructor
  · rw [h.symbols]
    exact hs.allotted
  · rw [h.pc, h.program]
    exact hs.beyond

variable {st : Statement} {code : Code}

theorem Coded.cells_prefix {symbols : SymbolTable} {ws : List Issue}
    (h : s.Coded st code symbols ws) (hs : s.symbols.Allotted) :
    symbols.Allotted ∧ s.symbols.cells <+: symbols.cells := by
  rcases h.kind with ⟨_, _, _, _, _, _, hdefine, _, _⟩ | ⟨_, _, _, _, _, rfl⟩
  · exact ⟨hs.define hdefine, SymbolTable.cells_prefix_define hs hdefine⟩
  · exact ⟨hs, List.prefix_rfl⟩

theorem Placed.continues (h : s.Placed s' st code) (hs : s.Extensible)
    (hdiagnostics : s.diagnostics <+: s'.diagnostics) : s.Continues s' := by
  rcases h.coded with ⟨ws, hcoded, -⟩
  constructor
  case pc =>
    rw [h.pc]
    omega
  case program =>
    intro x hx
    rw [h.program, Program.get?_insertCells, if_neg (by omega)]
  case listing =>
    rw [h.listing]
    exact List.prefix_append _ _
  case diagnostics => exact hdiagnostics
  case cells => exact (hcoded.cells_prefix hs.allotted).2

theorem Placed.extensible (h : s.Placed s' st code) (hs : s.Extensible) : s'.Extensible := by
  rcases h.coded with ⟨ws, hcoded, -⟩
  constructor
  case allotted => exact (hcoded.cells_prefix hs.allotted).1
  case beyond =>
    intro x hx
    rw [h.pc] at hx
    rw [h.program, Program.get?_insertCells, Code.length_cells, if_neg (by omega)]
    exact hs.beyond x (by omega)

/-- Whatever is on a line, nothing that is compiled before it changes. -/
theorem Extensible.compileLine (hs : s.Extensible) (text : String) (line : Int) :
    (s.compileLine text line).1.Extensible ∧ s.Continues (s.compileLine text line).1 := by
  rcases s.compileLine_diagnostics text line with ⟨new, hnew, -⟩
  have hdiagnostics : s.diagnostics <+: (s.compileLine text line).1.diagnostics := ⟨new, hnew.symm⟩
  rcases s.compileLine_cases text line with hreported | ⟨st, -, s₀, hs₀, hcases⟩
  · exact ⟨hreported.extensible hs, hreported.continues hdiagnostics⟩
  · -- closing the definitions changes nothing that is looked at here
    have hext : s₀.Extensible := hs₀ ▸ ⟨hs.allotted, hs.beyond⟩
    have hfirst : s.Continues s₀ :=
      hs₀ ▸ ⟨Int.le_refl _, fun _ _ => rfl, List.prefix_rfl, List.prefix_rfl, List.prefix_rfl⟩
    have hdiagnostics₀ : s₀.diagnostics <+: (s.compileLine text line).1.diagnostics :=
      hs₀ ▸ hdiagnostics
    rcases hcases with hreported | ⟨code, hplaced⟩
    · exact ⟨hreported.extensible hext, hfirst.trans (hreported.continues hdiagnostics₀)⟩
    · exact ⟨hplaced.extensible hext, hfirst.trans (hplaced.continues hext hdiagnostics₀)⟩

/-! ## All lines -/

theorem Extensible.compileLines (hs : s.Extensible) (ls : List (Int × String)) :
    (s.compileLines ls).1.Extensible ∧ s.Continues (s.compileLines ls).1 := by
  apply compileLines_induction (I := fun s' => s'.Extensible ∧ s.Continues s')
  · intro s₁ text line h
    have hline := h.1.compileLine text line
    exact ⟨hline.1, h.2.trans hline.2⟩
  · exact ⟨hs, .refl s⟩

/-- Lines that are numbered in increasing order are reported in this order. -/
theorem compileLines_diagnostics (s : Session) {ls : List (Int × String)}
    (hls : ls.Pairwise (·.1 < ·.1)) :
    ∃ new, (s.compileLines ls).1.diagnostics = s.diagnostics ++ new ∧
      (new.map (·.line)).Pairwise (· ≤ ·) ∧ ∀ d ∈ new, ∃ l ∈ ls, d.line = l.1 := by
  induction ls generalizing s with
  | nil => exact ⟨[], (List.append_nil _).symm, .nil, nofun⟩
  | cons first rest ih =>
    rcases List.pairwise_cons.mp hls with ⟨hfirst, hrest⟩
    rcases s.compileLine_diagnostics first.2 first.1 with ⟨new, hnew, hline⟩
    have hsame : (new.map (·.line)).Pairwise (· ≤ ·) := by
      rw [List.pairwise_map]
      apply List.pairwise_of_forall_mem_list
      intro d hd d' hd'
      rw [hline d hd, hline d' hd']
    unfold compileLines
    split
    · next s₁ cause heq =>
      rw [heq] at hnew
      exact ⟨new, hnew, hsame, fun d hd => ⟨first, by simp, hline d hd⟩⟩
    · next s₁ outcome hne heq =>
      rw [heq] at hnew
      rcases ih s₁ hrest with ⟨new', hnew', hsorted, hlines⟩
      refine ⟨new ++ new', ?_, ?_, ?_⟩
      · rw [hnew', hnew, List.append_assoc]
      · -- the lines that follow have greater numbers
        rw [List.map_append, List.pairwise_append]
        refine ⟨hsame, hsorted, ?_⟩
        intro n hn n' hn'
        rcases List.mem_map.mp hn with ⟨d, hd, rfl⟩
        rcases List.mem_map.mp hn' with ⟨d', hd', rfl⟩
        rcases hlines d' hd' with ⟨l, hl, hd'line⟩
        have hlt := hfirst l hl
        have hdline := hline d hd
        omega
      · intro d hd
        rcases List.mem_append.mp hd with hd | hd
        · exact ⟨first, by simp, hline d hd⟩
        · rcases hlines d hd with ⟨l, hl, heq⟩
          exact ⟨l, by simp [hl], heq⟩

/-- Lines are compiled after others in the session that these come to. -/
theorem compileLines_append (s : Session) (ls ls' : List (Int × String)) :
    s.compileLines (ls ++ ls') =
      match s.compileLines ls with
      | (s', some cause) => (s', some cause)
      | (s', none) => s'.compileLines ls' := by
  induction ls generalizing s with
  | nil => rfl
  | cons first rest ih =>
    rw [List.cons_append]
    simp only [compileLines]
    split
    · rfl
    · exact ih _

/-! ## Whole programs -/

variable {heapStart capacity : Int}

theorem extensible_start (heapStart capacity : Int) : (start { heapStart, capacity }).Extensible := by
  constructor
  case allotted => exact SymbolTable.allotted_empty heapStart capacity
  case beyond =>
    intro x hx
    have hpc : (start { heapStart, capacity }).pc = 5 := rfl
    rw [hpc] at hx
    unfold start place
    rw [Program.get?_insertCells, Code.length_cells, if_neg]
    · exact Std.ExtTreeMap.getElem?_empty
    · simp only [Code.size_preamble]
      omega

/-- Compiling a source comes to what its lines come to, and a record of the log. -/
theorem compile_eq_some_note {symbols : SymbolTable} {source : String} {s : Session}
    (h : (start symbols).compileLines (Text.numberedLines source) = (s, none)) :
    ∃ message, compile symbols source = (s.note .info message, none) := by
  unfold compile
  rw [h]
  exact ⟨_, rfl⟩

theorem exists_compileLines {symbols : SymbolTable} {source : String} {s' : Session}
    (h : compile symbols source = (s', none)) : ∃ s message,
      (start symbols).compileLines (Text.numberedLines source) = (s, none) ∧
        s' = s.note .info message := by
  unfold compile at h
  split at h
  · cases h
  · next s heq =>
    cases h
    exact ⟨s, _, heq, rfl⟩

/-- Where a source compiles, so does its beginning up to any line feed, and what follows disturbs
nothing: the program of the beginning is that of the whole below the final address, the listing and the
diagnostics of the beginning are where those of the whole begin, and the variables of the beginning
have the same places and cells. The diagnostics are in the order of the lines. -/
theorem compile_append {source more : String} {s' : Session}
    (h : compile { heapStart, capacity } (source ++ "\n" ++ more) = (s', none)) :
    ∃ s, compile { heapStart, capacity } source = (s, none) ∧
      (∀ x : Int, s.program[x]? = if x < s.pc then s'.program[x]? else none) ∧
      s.listing <+: s'.listing ∧ s.diagnostics <+: s'.diagnostics ∧
      (∀ (k : Nat) v, s.symbols.variables[k]? = some v →
        ∃ v', s'.symbols.variables[k]? = some v' ∧ v'.name = v.name ∧ v'.address = v.address) ∧
      (s'.diagnostics.map (·.line)).Pairwise (· ≤ ·) := by
  rcases exists_compileLines h with ⟨s₂, message, hlines, rfl⟩
  rcases (start { heapStart, capacity }).compileLines_diagnostics
    (Text.numberedLines_pairwise (source ++ "\n" ++ more)) with ⟨new, hnew, hsorted, -⟩
  rw [hlines] at hnew
  -- the lines of the beginning come first, and they come to a session of their own
  rcases Text.numberedLines_append source more with ⟨rest, hrest⟩
  rw [hrest, compileLines_append] at hlines
  cases hfirst : (start { heapStart, capacity }).compileLines (Text.numberedLines source) with
  | mk s₁ raised =>
    rw [hfirst] at hlines
    cases raised with
    | some cause => cases hlines
    | none =>
      have hext := (extensible_start heapStart capacity).compileLines (Text.numberedLines source)
      rw [hfirst] at hext
      rcases hext with ⟨hext, -⟩
      have hcontinues := (hext.compileLines rest).2
      simp only at hlines hext
      rw [hlines] at hcontinues
      rcases compile_eq_some_note hfirst with ⟨message₁, hcompile⟩
      refine ⟨_, hcompile, ?_, hcontinues.listing, hcontinues.diagnostics, ?_, ?_⟩
      · intro x
        change s₁.program[x]? = if x < s₁.pc then s₂.program[x]? else none
        split
        · next hx => exact (hcontinues.program x hx).symm
        · exact hext.beyond x (by omega)
      · exact SymbolTable.exists_of_cells_prefix hcontinues.cells
      · change (s₂.diagnostics.map (·.line)).Pairwise (· ≤ ·)
        rw [hnew]
        exact hsorted

/-- A source of which one line is no statement and the last one ends with a carriage return. -/
def shortSource : String := "DEF a 5\nHOP\nMOV a a\r"

/-- Redefines a variable, defines more of them than there is room for, and goes on. -/
def moreSource : String := "DEF a 7\nDEF b $1\nDEF c 0\nADD a b a"

theorem compile_append_redefined :
    (compile ⟨200, 2, []⟩ (shortSource ++ "\n" ++ moreSource)).2 = none ∧
    ∃ s, compile ⟨200, 2, []⟩ shortSource = (s, none) ∧ s.diagnostics <+:
      (compile ⟨200, 2, []⟩ (shortSource ++ "\n" ++ moreSource)).1.diagnostics := by
  have hraised : (compile ⟨200, 2, []⟩ (shortSource ++ "\n" ++ moreSource)).2 = none := by
    decide +kernel
  rcases compile_append (compile_eq hraised) with ⟨s, hs, -, -, hdiagnostics, -, -⟩
  exact ⟨hraised, s, hs, hdiagnostics⟩

end Session

end Subleq
