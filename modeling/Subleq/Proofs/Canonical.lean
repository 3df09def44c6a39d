import Mathlib
import Subleq.Proofs.Grammar

/-!
# Subleq.Proofs.Canonical — images in canonical form

There are many texts for one program store; the one that is written for it is its canonical form.

* Whatever a store holds, its image is read as a store with exactly the 256 addresses of an image,
  every field cut to eight bits on the way (`get?_readBack`).
* A store that is well formed, as any store is that was read (`wellFormed_of_read`), comes back
  filled up with empty cells (`readBack_eq_filled`). Empty cells are written for addresses without
  a cell anyway, so that filling up does not change the image (`render_filled`).
-/

namespace Subleq

/-! ## Fields of eight bits -/

/-- Decoding takes a number into the range of a signed byte by a multiple of 256. -/
theorem Byte.decode_eq_bmod (v : Int) : decode v = Int.bmod v 256 := by
  rw [Int.bmod_def, decode]
  rfl

namespace Cell

/-- Eight binary digits write a byte. -/
theorem byteAt_mem {digits : List Nat} (h : ∀ d ∈ digits, d < 2) (start : Nat) :
    0 ≤ byteAt digits start ∧ byteAt digits start ≤ 255 := by
  have hlt : Text.ofDigits 2 ((digits.drop start).take 8) < 2 ^ 8 := by
    have hdigits : ∀ d ∈ (digits.drop start).take 8, d < 2 := by
      intro d hd
      exact h d (List.mem_of_mem_drop (List.mem_of_mem_take hd))
    have hlength : ((digits.drop start).take 8).length ≤ 8 := List.length_take_le 8 _
    exact Nat.lt_of_lt_of_le (Text.ofDigits_lt hdigits) (Nat.pow_le_pow_right (by decide) hlength)
  unfold byteAt
  omega

/-- What bits stand for fits into as many bits. -/
theorem fits_of_decode {text : String} {c : Cell} (h : decode text = .ok c) : c.Fits := by
  unfold decode at h
  dsimp only at h
  split at h
  · cases h
  · split at h
    · cases h
    · next digits hdigits =>
      have hmem := byteAt_mem (Text.forall_of_mapM (fun _ _ => Text.bitValue?_lt) hdigits)
      -- the tag decides which of the two cells it is
      split at h
      · cases h
        exact ⟨Byte.decode_mem _, hmem 9, hmem 17⟩
      · cases h
        exact ⟨hmem 1, hmem 9, hmem 17⟩

end Cell

/-! ## Stores that fit into an image -/

namespace Program

/-- The store has cells at addresses of an image only, and all their fields are bytes. -/
def WellFormed (p : Program) : Prop :=
  ∀ (a : Int) (c : Cell), p[a]? = some c → (0 ≤ a ∧ a ≤ 255) ∧ c.Fits

instance (c : Cell) : Decidable c.Fits :=
  match c with
  | .load .. => inferInstanceAs (Decidable (_ ∧ _))
  | .subleq .. => inferInstanceAs (Decidable (_ ∧ _))

theorem wellFormed_iff {p : Program} :
    p.WellFormed ↔ ∀ e ∈ p.toList, (0 ≤ e.1 ∧ e.1 ≤ 255) ∧ e.2.Fits := by
  constructor
  · intro h e he
    exact h e.1 e.2 (Std.ExtTreeMap.mem_toList_iff_getElem?_eq_some.mp he)
  · intro h a c hc
    exact h (a, c) (Std.ExtTreeMap.mem_toList_iff_getElem?_eq_some.mpr hc)

instance (p : Program) : Decidable p.WellFormed := decidable_of_iff _ wellFormed_iff.symm

/-- The store with an empty cell at each address of an image that has none. -/
def filled (p : Program) : Program :=
  Image.addresses.foldl (fun q a => q.insertIfNew a Cell.empty) p

variable {p : Program}

theorem get?_insertIfNew (p : Program) (k a : Int) (c : Cell) :
    (p.insertIfNew k c)[a]? = if k = a then some (p[a]?.getD c) else p[a]? := by
  rw [Std.ExtTreeMap.getElem?_insertIfNew]
  simp only [Std.LawfulEqOrd.compare_eq_iff_eq]
  by_cases hka : k = a
  · subst hka
    cases hk : p[k]? with
    | none => simp [← Std.ExtTreeMap.isSome_getElem?_iff_mem, hk]
    | some d => simp [← Std.ExtTreeMap.isSome_getElem?_iff_mem, hk]
  · simp [hka]

theorem get?_foldl_insertIfNew (as : List Int) (p : Program) (x : Int) :
    (as.foldl (fun q a => q.insertIfNew a Cell.empty) p)[x]? =
      if x ∈ as then some (p.fetch x) else p[x]? := by
  induction as generalizing p with
  | nil => simp
  | cons a as ih =>
    rw [List.foldl_cons, ih]
    unfold fetch
    rw [get?_insertIfNew]
    by_cases hax : a = x
    · simp [hax]
    · simp [hax, Ne.symm hax]

/-- A store that is filled up has a cell at each address of an image, and what it had elsewhere. -/
theorem get?_filled (p : Program) (a : Int) :
    p.filled[a]? = if 0 ≤ a ∧ a ≤ 255 then some (p.fetch a) else p[a]? := by
  have hmem : a ∈ Image.addresses ↔ 0 ≤ a ∧ a ≤ 255 := by
    rw [Image.mem_addresses]
    omega
  simp only [filled, get?_foldl_insertIfNew, hmem]

/-- Empty cells that are added are not told apart from missing ones. -/
theorem fetch_filled (p : Program) (a : Int) : p.filled.fetch a = p.fetch a := by
  unfold fetch
  rw [get?_filled]
  split
  · rfl
  · rfl

theorem WellFormed.fits (h : p.WellFormed) (a : Int) : (p.fetch a).Fits := by
  unfold fetch
  cases ha : p[a]? with
  | none => exact ⟨by decide, by decide, by decide⟩
  | some c => exact (h a c ha).2

end Program

namespace Image

variable {p : Program}

/-! ## What is written -/

theorem render_filled (p : Program) : render p.filled = render p := by
  unfold render
  simp only [Program.fetch_filled]

/-- What is read back of a store that fits into an image is the store itself, filled up. -/
theorem readBack_eq_filled (h : p.WellFormed) : readBack p = p.filled := by
  apply AddressMap.ext_get?
  intro a
  rw [get?_readBack, Program.get?_filled]
  by_cases ha : 0 ≤ a ∧ a ≤ 255
  · have ha' : 0 ≤ a ∧ a < 256 := by omega
    rw [if_pos ha, if_pos ha', Cell.normalise_eq (h.fits a)]
  · have ha' : ¬(0 ≤ a ∧ a < 256) := by omega
    rw [if_neg ha, if_neg ha']
    -- there was nothing at any other address
    cases hget : p[a]? with
    | none => rfl
    | some c => exact absurd (h a c hget).1 ha

/-! ## What is read -/

theorem lt_two_of_mem_bits {cs : List Char} {d : Nat}
    (h : d ∈ cs.map fun c => if c = '1' then 1 else 0) : d < 2 := by
  rcases List.mem_map.mp h with ⟨c, -, rfl⟩
  split <;> decide

/-- A row of bits writes a number below the power of two that its width gives. -/
theorem IsBitRow.ofDigits_lt {w : Nat} {cs : List Char} (h : IsBitRow w cs) :
    Text.ofDigits 2 (cs.map fun c => if c = '1' then 1 else 0) < 2 ^ w := by
  rw [← h.1, ← List.length_map (fun c => if c = '1' then 1 else 0)]
  exact Text.ofDigits_lt fun d hd => lt_two_of_mem_bits hd

/-- The cell of a record is at an address of an image, and its fields are bytes. -/
theorem IsRecord.mem {line : List Char} {a : Int} {c : Cell} (h : IsRecord line a c) :
    (0 ≤ a ∧ a ≤ 255) ∧ c.Fits := by
  rcases h with ⟨field, data, hfield, -, -, rfl, hdecode⟩
  constructor
  · have hlt := hfield.ofDigits_lt
    unfold bitRowValue
    omega
  · exact Cell.fits_of_decode hdecode

/-- A store that was read fits into an image. -/
theorem wellFormed_of_read {text : String} (h : read text = .ok p) : p.WellFormed := by
  have hcases := readHeader_cases (Text.lines text.toList)
  have hread : readHeader 1 (Text.lines text.toList) = .ok p := h
  rw [hread] at hcases
  rcases hcases with ⟨q, hq, records, -, hholds⟩ | ⟨_, hq, -⟩ | ⟨_, _, hq, -⟩
  · cases hq
    intro a c hget
    rcases (hholds a c).mp hget with ⟨line, -, hrecord⟩
    exact hrecord.mem
  · cases hq
  · cases hq

/-- Any store is written as an image that can be read, and what is read has exactly the 256
addresses of an image: with the cell that was there, its addresses taken modulo 256 and its
immediate value taken into a signed byte by a multiple of 256, or else with the empty cell. A store
that is well formed comes back as it was, filled up with empty cells. The image of a store that was
read from any text is a canonical form of the text: it is read as the same store, filled up, and
this is written as the same image. -/
theorem read_render_canonical :
    (∀ p, ∃ q, read (render p) = .ok q ∧ ∀ a : Int, q[a]? =
      if 0 ≤ a ∧ a ≤ 255 then
        some (match p[a]? with
          | some (.load v d next) => .load (Int.bmod v 256) (d % 256) (next % 256)
          | some (.subleq x y target) => .subleq (x % 256) (y % 256) (target % 256)
          | none => .empty)
      else none) ∧
    (∀ p, p.WellFormed → read (render p) = .ok p.filled) ∧
    ∀ text p, read text = .ok p →
      ∃ q, read (render p) = .ok q ∧ q = p.filled ∧ render q = render p := by
  refine ⟨?_, ?_, ?_⟩
  · intro p
    refine ⟨readBack p, read_render p, fun a => ?_⟩
    have hbound : 0 ≤ a ∧ a ≤ 255 ↔ 0 ≤ a ∧ a < 256 := by omega
    simp only [get?_readBack, hbound, Program.fetch]
    cases p[a]? with
    | none => rfl
    | some c => cases c <;> simp [Cell.normalise, Byte.decode_eq_bmod]
  · intro p hp
    rw [read_render, readBack_eq_filled hp]
  · intro text p hread
    have hp := wellFormed_of_read hread
    refine ⟨p.filled, ?_, rfl, render_filled p⟩
    rw [read_render, readBack_eq_filled hp]

/-- An image of two cells, written in an order and with blanks of its own. -/
def scattered : String :=
  "WIDTH=25 ;\nBEGIN\n 00000101:1100000001111100100000110;\n\n" ++
    "00000010 :  0000000010000001000000011 ; \nEND;\nBEGIN"

theorem read_render_canonical_scattered :
    ∃ p, read scattered = .ok p ∧ p.toList = [(2, .subleq 1 2 3), (5, .load (-128) 249 6)] ∧
      p.WellFormed ∧ read (render p) = .ok p.filled ∧ render p.filled = render p := by
  have hentries : (read scattered).toOption.map (·.toList) =
      some [(2, .subleq 1 2 3), (5, .load (-128) 249 6)] := by decide +kernel
  cases hread : read scattered with
  | error e => simp [hread, Except.toOption] at hentries
  | ok p =>
    rw [hread] at hentries
    have hp := wellFormed_of_read hread
    rcases read_render_canonical.2.2 scattered p hread with ⟨q, -, rfl, hrender⟩
    exact ⟨p, rfl, Option.some.inj hentries, hp, read_render_canonical.2.1 p hp, hrender⟩

end Image

end Subleq
