import Mathlib
import Subleq.Proofs.Alike

/-!
# Subleq.Proofs.Dumps — dumps identify programs

The numbers of a dump stand in fields that widen where they have to, so that neither the length of a
line nor the place of a field in it is fixed. What is before and after a field is: no character of a
number is a blank, and none is what follows a number in a line. So a field that something else follows
can be read in one way only (`Text.fieldText_append_inj`). From field to field this carries over to cells
(`Cell.text_injective`) and to the lines of a dump (`Program.lineText_inj`), and, as no line holds a line
feed or is empty, to the whole dump. There is a dump only where no number is too long to be written
(`Program.exists_dump_iff`).
-/

namespace Subleq

/-! ## Fields -/

namespace Text

variable {n k : Int} {w : Nat} {cs ds : List Char}

/-- The character can be part of a number. -/
def isNumeric (c : Char) : Bool := c = '-' || c.isDigit

/-- The text does not begin with a character that can be part of a number. -/
def Breaks (cs : List Char) : Prop := ∀ c ∈ cs.head?, isNumeric c = false

/-- A number is written in digits, and a minus before them. -/
theorem isNumeric_of_mem_repr {c : Char} (h : c ∈ n.repr.toList) : isNumeric c = true := by
  have hdigits : ∀ m : Nat, c ∈ m.repr.toList → isNumeric c = true := by
    intro m hm
    rw [Nat.toList_repr] at hm
    have hdigit := Nat.isDigit_of_mem_toDigits (by decide) (by decide) hm
    simp [isNumeric, hdigit]
  rw [Int.repr_eq_if] at h
  split at h
  · exact hdigits _ h
  · rw [String.toList_append, List.mem_append] at h
    rcases h with h | h
    · have hminus : c = '-' := by simpa using h
      simp [isNumeric, hminus]
    · exact hdigits _ h

theorem repr_ne_nil (n : Int) : n.repr.toList ≠ [] := by
  intro h
  rw [String.toList_eq_nil_iff, Int.repr_eq_if] at h
  split at h
  · exact Nat.repr_ne_empty h
  · simp at h

/-- In a field, blanks stand before a number. -/
theorem exists_toList_fieldText (w : Nat) (n : Int) :
    ∃ blanks, (fieldText w n).toList = List.replicate blanks ' ' ++ n.repr.toList := by
  refine ⟨w - n.repr.length, ?_⟩
  unfold fieldText padStart
  rw [String.toList_append, String.toList_ofList]
  rfl

/-- From the blanks on, the characters of the number are those up to what is after the field. -/
theorem span_fieldText (w : Nat) (n : Int) (h : Breaks cs) :
    ((fieldText w n).toList ++ cs).dropWhile (· = ' ') = n.repr.toList ++ cs ∧
      (n.repr.toList ++ cs).takeWhile isNumeric = n.repr.toList ∧
      (n.repr.toList ++ cs).dropWhile isNumeric = cs := by
  have hnumeric : ∀ c ∈ n.repr.toList, isNumeric c = true := fun c hc => isNumeric_of_mem_repr hc
  rcases exists_toList_fieldText w n with ⟨blanks, hfield⟩
  refine ⟨?_, ?_, ?_⟩
  · obtain ⟨d, ds, hds⟩ := List.exists_cons_of_ne_nil (repr_ne_nil n)
    have hd : d ≠ ' ' := by
      rintro rfl
      have hblank := hnumeric ' ' (by simp [hds])
      revert hblank
      decide
    rw [hfield, List.append_assoc, List.dropWhile_append_of_pos (by simp), hds, List.cons_append,
      List.dropWhile_cons_of_neg (by simpa using hd)]
  · rw [List.takeWhile_append_of_pos hnumeric]
    cases cs with
    | nil => simp
    | cons c cs => simp [h c rfl]
  · rw [List.dropWhile_append_of_pos hnumeric]
    cases cs with
    | nil => rfl
    | cons c cs => simp [h c rfl]

/-- A field can be read in one way only. -/
theorem fieldText_append_inj (hcs : Breaks cs) (hds : Breaks ds)
    (h : (fieldText w n).toList ++ cs = (fieldText w k).toList ++ ds) : n = k ∧ cs = ds := by
  rcases span_fieldText w n hcs with ⟨hrest, htake, hdrop⟩
  rcases span_fieldText w k hds with ⟨hrest', htake', hdrop'⟩
  have hsame : n.repr.toList ++ cs = k.repr.toList ++ ds := by
    rw [← hrest, ← hrest', h]
  have hnumbers : n.repr.toList = k.repr.toList := by
    rw [← htake, ← htake', hsame]
  refine ⟨Int.repr_injective (String.toList_inj.mp hnumbers), ?_⟩
  rw [← hdrop, ← hdrop', hsame]

theorem newline_notMem_fieldText (w : Nat) (n : Int) : '\n' ∉ (fieldText w n).toList := by
  rcases exists_toList_fieldText w n with ⟨blanks, hfield⟩
  rw [hfield, List.mem_append]
  rintro (hblank | hnumber)
  · have hsame := List.eq_of_mem_replicate hblank
    revert hsame
    decide
  · have hnumeric := isNumeric_of_mem_repr hnumber
    revert hnumeric
    decide

/-! ## Rows of fields -/

/-- The texts before the fields of a row, and the widths of the fields. -/
abbrev Shape : Type := List (String × Nat)

/-- The row of fields of a shape with the given numbers. -/
def spell : Shape → List Int → List Char
  | (text, w) :: shape, n :: ns => text.toList ++ ((fieldText w n).toList ++ spell shape ns)
  | _, _ => []

/-- Each text of the shape ends the field before it, and has no line feed. -/
def Shape.Clear (shape : Shape) : Prop :=
  ∀ part ∈ shape, (part.1.toList.head?.any fun c => !isNumeric c) ∧ '\n' ∉ part.1.toList

instance (shape : Shape) : Decidable shape.Clear :=
  inferInstanceAs (Decidable (∀ part ∈ shape, _ ∧ _))

theorem breaks_append {text : String} (h : text.toList.head?.any fun c => !isNumeric c)
    (cs : List Char) : Breaks (text.toList ++ cs) := by
  intro c hc
  cases htext : text.toList with
  | nil =>
    rw [htext] at h
    cases h
  | cons d ds =>
    rw [htext] at h hc
    have hcd : d = c := by simpa using hc
    rw [← hcd]
    simpa using h

theorem breaks_spell {shape : Shape} (h : shape.Clear) (ns : List Int) : Breaks (spell shape ns) := by
  cases shape with
  | nil => exact nofun
  | cons part shape =>
    cases ns with
    | nil => exact nofun
    | cons n ns => exact breaks_append (h part (by simp)).1 _

/-- The numbers of a row can be read in one way only. -/
theorem spell_inj {shape : Shape} (hclear : shape.Clear) {ns ks : List Int}
    (hns : ns.length = shape.length) (hks : ks.length = shape.length)
    (h : spell shape ns = spell shape ks) : ns = ks := by
  induction shape generalizing ns ks with
  | nil => rw [List.length_eq_zero_iff.mp hns, List.length_eq_zero_iff.mp hks]
  | cons part shape ih =>
    obtain ⟨n, ns, rfl⟩ := List.exists_cons_of_length_eq_add_one hns
    obtain ⟨k, ks, rfl⟩ := List.exists_cons_of_length_eq_add_one hks
    have hrest : Shape.Clear shape := fun part hpart => hclear part (by simp [hpart])
    rcases fieldText_append_inj (breaks_spell hrest ns) (breaks_spell hrest ks)
      (List.append_cancel_left h) with ⟨rfl, hsame⟩
    rw [ih hrest (by simpa using hns) (by simpa using hks) hsame]

theorem newline_notMem_spell {shape : Shape} (hclear : shape.Clear) (ns : List Int) :
    '\n' ∉ spell shape ns := by
  induction shape generalizing ns with
  | nil => simp [spell]
  | cons part shape ih =>
    cases ns with
    | nil => simp [spell]
    | cons n ns =>
      have hrest : Shape.Clear shape := fun part hpart => hclear part (by simp [hpart])
      simp only [spell, List.mem_append, not_or]
      exact ⟨(hclear part (by simp)).2, newline_notMem_fieldText _ n, ih hrest ns⟩

end Text

/-! ## Cells -/

namespace Cell

open Text

/-- How a load is written. -/
def loadShape : Shape := [("loadim ", 6), (", m(", 3), ("), ", 3)]

/-- How a subtraction is written. -/
def subleqShape : Shape := [("subleq m(", 3), ("), m(", 3), ("), ", 3)]

theorem toList_text (c : Cell) : c.text.toList =
    match c with
    | .load value dest next => spell loadShape [value, dest, next]
    | .subleq a b target => spell subleqShape [a, b, target] := by
  cases c with
  | load value dest next =>
    change ("loadim " ++ fieldText 6 value ++ ", m(" ++ fieldText 3 dest ++ "), " ++ fieldText 3 next).toList = _
    simp only [String.toList_append, List.append_assoc, loadShape, spell, List.append_nil]
  | subleq a b target =>
    change ("subleq m(" ++ fieldText 3 a ++ "), m(" ++ fieldText 3 b ++ "), " ++ fieldText 3 target).toList = _
    simp only [String.toList_append, List.append_assoc, subleqShape, spell, List.append_nil]

/-- A cell can be told from its text. -/
theorem text_injective : Function.Injective text := by
  intro c c' h
  have hchars := congrArg String.toList h
  rw [toList_text, toList_text] at hchars
  cases c with
  | load value dest next =>
    cases c' with
    | load value' dest' next' =>
      have hfields := spell_inj (by decide) rfl rfl hchars
      cases hfields
      rfl
    | subleq a b target =>
      have hfirst := congrArg List.head? hchars
      cases hfirst
  | subleq a b target =>
    cases c' with
    | load value dest next =>
      have hfirst := congrArg List.head? hchars
      cases hfirst
    | subleq a' b' target' =>
      have hfields := spell_inj (by decide) rfl rfl hchars
      cases hfields
      rfl

theorem newline_notMem_text (c : Cell) : '\n' ∉ c.text.toList := by
  rw [toList_text]
  cases c with
  | load value dest next => exact newline_notMem_spell (by decide) _
  | subleq a b target => exact newline_notMem_spell (by decide) _

end Cell

/-! ## Joined lines -/

/-- Lines that are not empty and have no line feed can be told from the text they are joined to. -/
theorem Text.joinLines_inj {lines lines' : List String}
    (h : ∀ line ∈ lines, line ≠ "" ∧ '\n' ∉ line.toList)
    (hother : ∀ line ∈ lines', line ≠ "" ∧ '\n' ∉ line.toList)
    (hsame : joinLines lines = joinLines lines') : lines = lines' := by
  -- splitting gives the lines back, and one empty line if there were none
  have hlines := String.toList_split_intercalate fun line hline => (h line hline).2
  have hlines' := String.toList_split_intercalate fun line hline => (hother line hline).2
  have hsplit : (if lines = [] then [""] else lines) = if lines' = [] then [""] else lines' := by
    rw [← hlines, ← hlines']
    exact congrArg (fun text : String => (text.split '\n').toList.map (·.copy)) hsame
  split at hsplit
  · next hnil =>
    split at hsplit
    · next hnil' => rw [hnil, hnil']
    · exact absurd rfl (hother "" (by simp [← hsplit])).1
  · split at hsplit
    · exact absurd rfl (h "" (by simp [hsplit])).1
    · exact hsplit

/-! ## Dumps -/

namespace Program

open Text

variable {p q : Program}

theorem toList_lineText (a : Int) (c : Cell) : (lineText a c).toList =
    "Addr: ".toList ++ ((fieldText 3 a).toList ++ (" Instr: ".toList ++ c.text.toList)) := by
  change ("Addr: " ++ fieldText 3 a ++ " Instr: " ++ c.text).toList = _
  simp only [String.toList_append, List.append_assoc]

/-- An address and a cell can be told from their line. -/
theorem lineText_inj {a a' : Int} {c c' : Cell} (h : lineText a c = lineText a' c') :
    a = a' ∧ c = c' := by
  have hchars := congrArg String.toList h
  rw [toList_lineText, toList_lineText] at hchars
  rcases fieldText_append_inj (breaks_append (by decide) _) (breaks_append (by decide) _)
    (List.append_cancel_left hchars) with ⟨haddress, hrest⟩
  exact ⟨haddress, Cell.text_injective (String.toList_inj.mp (List.append_cancel_left hrest))⟩

/-- A line of a dump is a line. -/
theorem isLine_lineText (a : Int) (c : Cell) : lineText a c ≠ "" ∧ '\n' ∉ (lineText a c).toList := by
  constructor
  · intro hempty
    have hchars := congrArg String.toList hempty
    rw [toList_lineText] at hchars
    cases hchars
  · rw [toList_lineText]
    simp only [List.mem_append, not_or]
    exact ⟨by decide, newline_notMem_fieldText _ _, by decide, Cell.newline_notMem_text _⟩

/-- It lists them by address. -/
theorem pairwise_populated (p : Program) : p.populated.Pairwise fun e e' => e.1 < e'.1 := by
  have hordered := Std.ExtTreeMap.ordered_keys_toList (t := p)
  apply List.Pairwise.filter
  refine hordered.imp ?_
  intro e e' hlt
  exact Int.compare_eq_lt.mp hlt

theorem get?_eq_some_iff {a : Int} {c : Cell} (hc : c ≠ .empty) :
    p[a]? = some c ↔ p.fetch a = c := by
  unfold fetch
  cases p[a]? with
  | none => simpa using hc.symm
  | some d => simp

/-- The same cell is fetched at each address if the cells that are not empty are the same. -/
theorem alike_iff : p.Alike q ↔
    ∀ (a : Int) (c : Cell), c ≠ .empty → (p[a]? = some c ↔ q[a]? = some c) := by
  constructor
  · intro h a c hc
    rw [get?_eq_some_iff hc, get?_eq_some_iff hc, h a]
  · intro h a
    by_cases hp : p.fetch a = .empty
    · by_cases hq : q.fetch a = .empty
      · rw [hp, hq]
      · exact (get?_eq_some_iff hq).mp ((h a _ hq).mpr ((get?_eq_some_iff hq).mpr rfl))
    · exact ((get?_eq_some_iff hp).mp ((h a _ hp).mp ((get?_eq_some_iff hp).mpr rfl))).symm

/-- The text of a dump, however long its numbers are. -/
def dumpText (p : Program) : String := joinLines (p.populated.map fun e => lineText e.1 e.2)

/-- Stores that have the same dump list the same cells. -/
theorem populated_of_dumpText (h : p.dumpText = q.dumpText) : p.populated = q.populated := by
  have hlines : ∀ r : Program, ∀ text ∈ r.populated.map fun e => lineText e.1 e.2,
      text ≠ "" ∧ '\n' ∉ text.toList := by
    intro r text htext
    rcases List.mem_map.mp htext with ⟨e, -, rfl⟩
    exact isLine_lineText e.1 e.2
  have hinj : Function.Injective fun e : Int × Cell => lineText e.1 e.2 := fun e e' h =>
    Prod.ext (lineText_inj h).1 (lineText_inj h).2
  exact List.map_injective_iff.mpr hinj (joinLines_inj (hlines p) (hlines q) h)

/-- Which stores have a dump. -/
theorem exists_dump_iff : (∃ text, p.dump = .ok text) ↔ p.IsWritable := by
  simp [p.writtenIf_dump.eq_ok_iff]

theorem dump_eq_iff {text : String} (h : p.dump = .ok text) :
    q.dump = .ok text ↔ p.Alike q := by
  constructor
  · intro h'
    have hp := (p.writtenIf_dump.eq_ok_iff.mp h).2
    have hq := (q.writtenIf_dump.eq_ok_iff.mp h').2
    rw [alike_iff]
    intro a c hc
    have hmem : (a, c) ∈ p.populated ↔ (a, c) ∈ q.populated := by
      rw [populated_of_dumpText (hp.symm.trans hq)]
    rw [mem_populated_iff, mem_populated_iff] at hmem
    simpa [hc] using hmem
  · intro halike
    rw [← halike.dump]
    exact h

/-- One load, and the same with an empty cell after it. -/
def sparse : Program := AddressMap.ofEntries [(3, .load (-5) 10 4)]

def padded : Program := AddressMap.ofEntries [(3, .load (-5) 10 4), (7, .empty)]

end Program

end Subleq
