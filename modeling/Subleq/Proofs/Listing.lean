import Mathlib
import Subleq.Proofs.Alike

/-!
# Subleq.Proofs.Listing — the layout of a compiled program

Whatever lines were accepted and rejected, the store ends up filled from address 0 without a gap, by
pieces whose sizes are fixed by their operations (`LaidOut`), and each of its cells can be told from
an empty one and be written in eight bits a field. The listing shows the store: reading it address by
address gives the same lines.
-/

namespace Subleq

open Layout

/-! ## Sizes -/

/-- The number of cells of each statement. -/
def Opcode.cellCount : Opcode → Nat
  | define | jump => 1
  | jumpVia | move => 4
  | add => 5
  | sub => 9
  | mul => 13
  | div | ifGreater | ifAtMost => 14

theorem Code.Realizes.size_eq {t : SymbolTable} {clause : Clause} {code : Code}
    (h : code.Realizes t clause) : code.size = clause.opcode.cellCount := by
  cases h with
  | define => rfl
  | operation hop =>
    rw [size_operation]
    cases hop with
    | jump | jumpVia | move => rfl
    | @arith op => cases op <;> rfl
    | @branch cond => cases cond <;> rfl

/-! ## Cells -/

/-- A cell of an operation is never mistaken for an empty one: it goes on somewhere behind the first
cell of the store, or it subtracts from a reserved cell. -/
theorem Code.HasCell.ne_empty {op : Operation Int} {first here : Int} {cell : Cell}
    (h : HasCell op first here cell) (hhere : 0 ≤ here) : cell ≠ .empty := by
  rintro rfl
  rcases h with ⟨_, _, hnext | ⟨hreserved, _⟩⟩
  · omega
  · simp only [zero] at hreserved
    omega

namespace Session

variable {s : Session} {p : Placement}

theorem Sound.ne_empty (h : s.Sound) {x : Int} {c : Cell} (hc : s.program[x]? = some c) :
    c ≠ .empty := by
  rcases (h.program x c).mp hc with ⟨p, hp, i, rfl, hi⟩
  have hmem := h.tiles.mem hp
  cases hcode : p.code.isOperation with
  | true =>
    rcases Code.exists_operation hcode with ⟨op, hop⟩
    rw [hop] at hi
    have hhas := eachCell_iff.mp (Code.each_operation op p.start) i c hi
    exact hhas.ne_empty (by omega)
  | false =>
    rcases eachCell_iff.mp (Code.each_load hcode p.start) i c hi with ⟨v, a, rfl, _⟩
    simp [Cell.empty]

/-- There is a cell at every address up to the program counter, and nowhere else. -/
theorem Sound.isSome_iff (h : s.Sound) (x : Int) :
    (s.program[x]?).isSome ↔ 0 ≤ x ∧ x < s.pc := by
  constructor
  · intro hsome
    by_contra hout
    rw [h.get?_of_le (by omega)] at hsome
    cases hsome
  · rintro ⟨hle, hlt⟩
    rcases h.tiles.exists_mem hle hlt with ⟨p, hp, i, hi, rfl⟩
    have hcell := List.getElem?_eq_getElem (l := p.code.cells p.start) (i := i)
      (by rwa [Code.length_cells])
    rw [(h.program _ _).mpr ⟨p, hp, i, rfl, hcell⟩]
    rfl

/-! ## The listing -/

/-- The line for an address: its number, the cell that the store has there, and, if a piece of code
begins there, the source line of the piece. -/
def lineAt? (s : Session) (x : Int) : Option String := do
  let cell ← s.program[x]?
  let source := ((s.listing.find? (·.start = x)).map (·.source)).getD ""
  let remark := if source ≠ "" then s!"  ; {source}" else ""
  return s!"{Text.fieldText 3 x}  {cell.text}{remark}"

/-- The lines of a piece of code, however long their numbers are. -/
def placementTexts (p : Placement) : List String :=
  (p.code.cells p.start).zipIdx.map fun (cell, i) =>
    let remark := if i = 0 ∧ p.source ≠ "" then s!"  ; {p.source}" else ""
    s!"{Text.fieldText 3 (p.start + (i : Int))}  {cell.text}{remark}"

theorem writtenIf_placementLines (p : Placement) :
    Text.WrittenIf (placementLines p)
      (∀ e ∈ (p.code.cells p.start).zipIdx, e.1.IsWritable ∧ Text.IsWritable (p.start + (e.2 : Int)))
      (placementTexts p) :=
  Text.WrittenIf.mapM (fun e : Cell × Nat =>
    e.1.writtenIf_disassemble.bind ((Text.writtenIf_field 3 _).bind_pure _)) _

/-- Among the addresses of a piece of code only the first is one at which a piece begins. -/
theorem Sound.find?_listing (h : s.Sound) (hp : p ∈ s.listing) {i : Nat} (hi : i < p.code.size) :
    s.listing.find? (·.start = p.start + i) = if i = 0 then some p else none := by
  have hunique : ∀ q ∈ s.listing, q.start = p.start + i → p = q ∧ i = 0 := fun q hq hstart =>
    h.tiles.unique hp hq (j := 0) hi q.code.size_pos (by omega)
  cases hfind : s.listing.find? (·.start = p.start + i) with
  | some q =>
    have hstart : q.start = p.start + i := by simpa using List.find?_some hfind
    rcases hunique q (List.mem_of_find?_eq_some hfind) hstart with ⟨rfl, rfl⟩
    rfl
  | none =>
    rw [if_neg]
    rintro rfl
    have hnone := List.find?_eq_none.mp hfind p hp
    simp at hnone

/-- The lines of a piece of code are those for its addresses. -/
theorem Sound.placementTexts_eq (h : s.Sound) (hp : p ∈ s.listing) :
    (placementTexts p).map some =
      (List.range p.code.size).map fun i : Nat => s.lineAt? (p.start + i) := by
  apply List.ext_getElem
  · simp [placementTexts, Code.length_cells]
  intro i hi hi'
  simp only [placementTexts, List.length_map, List.length_zipIdx] at hi
  have hlt : i < p.code.size := by rwa [← Code.length_cells p.code p.start]
  have hstored : s.program[p.start + (i : Int)]? = some (p.code.cells p.start)[i] :=
    (h.program _ _).mpr ⟨p, hp, i, rfl, List.getElem?_eq_getElem hi⟩
  simp only [placementTexts, List.getElem_map, List.getElem_zipIdx, List.getElem_range, lineAt?,
    hstored, h.find?_listing hp hlt, Option.bind_eq_bind, Option.bind_some, Option.pure_def,
    Nat.zero_add, Option.some.injEq]
  by_cases hfirst : i = 0
  · simp [hfirst]
  · simp [hfirst]

/-- The lines of pieces of code that lie one after the other. -/
theorem Sound.flatMap_placementTexts (h : s.Sound) {a b : Int} {ps : List Placement}
    (htiles : Tiles a ps b) (hps : ∀ p ∈ ps, p ∈ s.listing) :
    (ps.flatMap placementTexts).map some =
      (List.range (b - a).toNat).map fun i : Nat => s.lineAt? (a + i) := by
  induction htiles with
  | nil a => simp
  | @cons p ps a b hstart hrest ih =>
    subst hstart
    -- the addresses up to `b` are those of the first piece and those of the others
    have hle := hrest.le
    have hsplit : (b - p.start).toNat = p.code.size + (b - (p.start + p.code.size)).toNat := by
      omega
    rw [List.flatMap_cons, List.map_append, h.placementTexts_eq (hps p (by simp)),
      ih fun q hq => hps q (List.mem_cons_of_mem p hq), hsplit, List.range_add, List.map_append,
      List.map_map]
    simp only [Function.comp_def, Int.natCast_add, Int.add_assoc]

/-- All numbers in the listing are bytes. -/
theorem Sound.listingText_eq (h : s.Sound) :
    s.listingText = .ok (Text.joinLines (s.listing.flatMap placementTexts)) := by
  have hwritable : ∀ p ∈ s.listing, ∀ e ∈ (p.code.cells p.start).zipIdx,
      e.1.IsWritable ∧ Text.IsWritable (p.start + (e.2 : Int)) := by
    rintro p hp ⟨c, i⟩ he
    have hi := List.mk_mem_zipIdx_iff_getElem?.mp he
    have hstored := (h.program _ _).mpr ⟨p, hp, i, rfl, hi⟩
    have hmem := (h.isSome_iff (p.start + (i : Int))).mp (by rw [hstored]; rfl)
    have hfits := h.fits (p.start + (i : Int))
    rw [Program.fetch, hstored] at hfits
    have hroom := h.room
    simp only [programLimit] at hroom
    exact ⟨hfits.isWritable, Text.isWritable_of_lt (by simp only; omega) (by simp only; omega)⟩
  rw [List.flatMap_def]
  exact ((Text.WrittenIf.mapM writtenIf_placementLines s.listing).bind_pure
    fun lines => Text.joinLines lines.flatten).ok hwritable

/-! ## The layout -/

/-- What the store and the listing of a program are like. -/
structure LaidOut (s : Session) : Prop where
  /-- There is room for the preamble, and the last address has a successor in eight bits. -/
  pc_mem : 5 ≤ s.pc ∧ s.pc ≤ 255
  addresses : ∀ x, (s.program[x]?).isSome ↔ 0 ≤ x ∧ x < s.pc
  /-- The pieces of code lie one after the other, from the first address on. -/
  tiles : Tiles 0 s.listing s.pc
  /-- The first piece is the preamble; each other one is a statement of the size that goes with it. -/
  pieces : preamble.code.size = 5 ∧ ∃ ps, s.listing = preamble :: ps ∧
    ∀ p ∈ ps, ∃ clause, p.clause? = some clause ∧ p.code.size = clause.opcode.cellCount
  cells : ∀ (x : Int) (c : Cell), s.program[x]? = some c → c.Fits ∧ c ≠ .empty
  /-- Each address has a line of its own in the listing, in increasing order. -/
  listed : ∃ lines : List String, s.listingText = .ok (Text.joinLines lines) ∧
    lines.map some = (List.range s.pc.toNat).map fun i : Nat => s.lineAt? i

theorem Sound.laidOut (hs : s.Sound) : s.LaidOut := by
  constructor
  case pc_mem =>
    have hmem := (hs.tiles.mem hs.preamble_mem).2
    have hsize : ((preamble.code.size : Nat) : Int) = 5 := rfl
    have hroom := hs.room
    simp only [preamble, programLimit] at hmem hsize hroom
    omega
  case addresses => exact hs.isSome_iff
  case tiles => exact hs.tiles
  case pieces =>
    rcases hs.realized with ⟨ps, hlisting, hps⟩
    refine ⟨rfl, ps, hlisting, fun p hp => ?_⟩
    rcases hps p hp with ⟨clause, hclause, hreal⟩
    exact ⟨clause, hclause, hreal.size_eq⟩
  case cells =>
    intro x c hc
    have hfits := hs.fits x
    rw [Program.fetch, hc] at hfits
    exact ⟨hfits, hs.ne_empty hc⟩
  case listed =>
    refine ⟨s.listing.flatMap placementTexts, hs.listingText_eq, ?_⟩
    have hlines := hs.flatMap_placementTexts hs.tiles fun _ hp => hp
    simpa only [Int.sub_zero, Int.zero_add] using hlines

/-- Whatever the source, and however far compiling has come. -/
theorem laidOut_compile (source : String) : (compile {} source).1.LaidOut :=
  (sound_compile source).laidOut

end Session

end Subleq
