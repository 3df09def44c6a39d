import Mathlib
import Subleq.Proofs.Canonical
import Subleq.Proofs.Literals

/-!
# Subleq.Proofs.Encoding — cells as rows of bits

Writing a cell in 25 bits loses what its fields have above their low eight bits, and nothing else:
two cells have the same bits exactly if they are congruent (`encode_eq_iff_congruent`). The other
way round nothing is lost at all. A text is decoded exactly if it is a row of 25 bits, and the cell
that it stands for is the one cell with fields of eight bits that is written as this text
(`decode_eq_ok_iff`). Both rest on one fact about fields: a row of bits is determined by its width
and the number it writes (`IsBitRow.eq_of_value_eq`).
-/

namespace Subleq

/-! ## Rows of bits -/

namespace Image

variable {w w' : Nat} {cs ds : List Char}

theorem IsBitRow.split (h : IsBitRow (w + w') cs) :
    IsBitRow w (cs.take w) ∧ IsBitRow w' (cs.drop w) := by
  rcases h with ⟨hlength, hbits⟩
  constructor
  · exact ⟨by simp [hlength], fun c hc => hbits c (List.mem_of_mem_take hc)⟩
  · exact ⟨by simp [hlength], fun c hc => hbits c (List.mem_of_mem_drop hc)⟩

/-- The digits of a row give its characters back. -/
theorem IsBitRow.map_bitChar (h : IsBitRow w cs) :
    (cs.map fun c => if c = '1' then 1 else 0).map Byte.bitChar = cs := by
  rw [List.map_map]
  refine (List.map_congr_left fun c hc => ?_).trans (List.map_id cs)
  rcases h.2 c hc with rfl | rfl <;> rfl

/-- A row of bits is determined by its width and the number it writes. -/
theorem IsBitRow.eq_of_value_eq (h : IsBitRow w cs) (h' : IsBitRow w ds)
    (hvalue : bitRowValue cs = bitRowValue ds) : cs = ds := by
  have hbit : ∀ xs : List Char, ∀ d ∈ (xs.map fun c => if c = '1' then 1 else 0).reverse, d < 2 := by
    intro xs d hd
    exact lt_two_of_mem_bits (List.mem_reverse.mp hd)
  unfold bitRowValue at hvalue
  rw [Text.ofDigits_eq, Text.ofDigits_eq, Int.natCast_inj] at hvalue
  have hdigits := Nat.ofDigits_inj_of_len_eq one_lt_two (by simp [h.1, h'.1]) (hbit cs) (hbit ds) hvalue
  rw [← h.map_bitChar, ← h'.map_bitChar, List.reverse_injective hdigits]

/-! ## The rows that are written -/

theorem isBitRow_bitChars (w n : Nat) : IsBitRow w (Byte.bitChars w n) :=
  ⟨Byte.length_bitChars w n, fun _ hc => Byte.mem_bitChars hc⟩

theorem bitRowValue_bitChars (w n : Nat) : bitRowValue (Byte.bitChars w n) = (n % 2 ^ w : Nat) := by
  rcases Text.digits_of_bitChars w n with ⟨digits, hdigits, -, hvalue⟩
  rcases Text.mapM_bitValue?_eq_some_iff.mp hdigits with ⟨-, rfl⟩
  rw [bitRowValue, hvalue]

/-- Any row of bits is written for the number that it writes. -/
theorem IsBitRow.exists_bitChars (h : IsBitRow w cs) :
    ∃ n : Nat, n < 2 ^ w ∧ bitRowValue cs = n ∧ Byte.bitChars w n = cs := by
  refine ⟨_, h.ofDigits_lt, rfl, (isBitRow_bitChars w _).eq_of_value_eq h ?_⟩
  rw [bitRowValue_bitChars, Nat.mod_eq_of_lt h.ofDigits_lt]
  rfl

end Image

open Image (IsBitRow bitRowValue)

namespace Byte

/-- The low bits of an integer in a field of one bit at least are as many bits, and write the
number modulo the power of two. -/
theorem bitField_eq (v : Int) {w : Int} (hw : 1 ≤ w) :
    ∃ row, bitField v w = .ok row ∧ IsBitRow w.toNat row.toList ∧
      bitRowValue row.toList = v % 2 ^ w.toNat := by
  have hwidth : ¬w < 0 := by omega
  have hne : w.toNat ≠ 0 := by omega
  have hpos : (0 : Int) < 2 ^ w.toNat := by positivity
  have hrow : (bits v w.toNat).toList = bitChars w.toNat (v % 2 ^ w.toNat).toNat := by
    rw [bits, if_neg hne, String.toList_ofList]
    rfl
  refine ⟨bits v w.toNat, by rw [bitField, if_neg hwidth], ?_, ?_⟩
  · rw [hrow]
    exact Image.isBitRow_bitChars _ _
  · have hnonneg := Int.emod_nonneg v hpos.ne'
    have hlt := Int.emod_lt_of_pos v hpos
    rw [hrow, Image.bitRowValue_bitChars]
    push_cast
    rw [Int.toNat_of_nonneg hnonneg, Int.emod_eq_of_lt hnonneg hlt]

/-- A field shows a number modulo 256. -/
theorem field_eq_iff {v v' : Int} : field v = field v' ↔ v ≡ v' [ZMOD 256] := by
  constructor
  · intro h
    have hvalue := congrArg bitRowValue h
    unfold field at hvalue
    rw [Image.bitRowValue_bitChars, Image.bitRowValue_bitChars] at hvalue
    show v % 256 = v' % 256
    omega
  · intro h
    unfold field
    rw [h.eq]

/-- Each row of eight bits is the field of a byte. -/
theorem exists_field {cs : List Char} (h : IsBitRow 8 cs) :
    ∃ v : Int, (0 ≤ v ∧ v ≤ 255) ∧ field v = cs := by
  rcases h.exists_bitChars with ⟨n, hn, -, hrow⟩
  have hn' : ((n : Int) % 256).toNat = n := by omega
  refine ⟨n, by omega, ?_⟩
  rw [field, hn', hrow]

end Byte

/-! ## Cells -/

namespace Cell

/-- The cells are of one kind, and their fields are congruent modulo 256. -/
def Congruent : Cell → Cell → Prop
  | load v d next, load v' d' next' =>
    v ≡ v' [ZMOD 256] ∧ d ≡ d' [ZMOD 256] ∧ next ≡ next' [ZMOD 256]
  | subleq a b target, subleq a' b' target' =>
    a ≡ a' [ZMOD 256] ∧ b ≡ b' [ZMOD 256] ∧ target ≡ target' [ZMOD 256]
  | load .., subleq .. => False
  | subleq .., load .. => False

theorem isBitRow_encode (c : Cell) : IsBitRow width c.encode.toList := by
  rw [toList_encode]
  cases c with
  | load v d next => exact ⟨length_bitRow .., fun x hx => mem_bitRow (Or.inr rfl) hx⟩
  | subleq a b target => exact ⟨length_bitRow .., fun x hx => mem_bitRow (Or.inl rfl) hx⟩

/-- The tag and the fields of a row are found again, since the fields have a fixed width. -/
theorem bitRow_eq_iff {tag tag' : Char} {a b c a' b' c' : Int} :
    bitRow tag a b c = bitRow tag' a' b' c' ↔
      tag = tag' ∧ a ≡ a' [ZMOD 256] ∧ b ≡ b' [ZMOD 256] ∧ c ≡ c' [ZMOD 256] := by
  have hlength : ∀ v v' : Int, (Byte.field v).length = (Byte.field v').length := by
    intro v v'
    simp only [Byte.field, Byte.length_bitChars]
  constructor
  · intro h
    rcases List.cons.inj h with ⟨htag, hfields⟩
    rcases List.append_inj hfields (by simp [hlength a a', hlength b b']) with ⟨hab, hc⟩
    rcases List.append_inj hab (hlength a a') with ⟨ha, hb⟩
    exact ⟨htag, Byte.field_eq_iff.mp ha, Byte.field_eq_iff.mp hb, Byte.field_eq_iff.mp hc⟩
  · rintro ⟨rfl, ha, hb, hc⟩
    rw [bitRow, Byte.field_eq_iff.mpr ha, Byte.field_eq_iff.mpr hb, Byte.field_eq_iff.mpr hc]
    rfl

/-- Writing a cell forgets its fields up to multiples of 256, and nothing else. -/
theorem encode_eq_iff_congruent {c c' : Cell} : c.encode = c'.encode ↔ c.Congruent c' := by
  rw [← String.toList_inj, toList_encode, toList_encode]
  cases c with
  | load v d next =>
    cases c' with
    | load v' d' next' => simp [bitRow_eq_iff, Congruent]
    | subleq a' b' target' => simp [bitRow_eq_iff, Congruent]
  | subleq a b target =>
    cases c' with
    | load v' d' next' => simp [bitRow_eq_iff, Congruent]
    | subleq a' b' target' => simp [bitRow_eq_iff, Congruent]

/-- A row of 25 bits is a tag and the fields of three bytes. -/
theorem exists_bitRow {cs : List Char} (h : IsBitRow width cs) :
    ∃ tag a b c, (tag = '0' ∨ tag = '1') ∧ (0 ≤ a ∧ a ≤ 255) ∧ (0 ≤ b ∧ b ≤ 255) ∧
      (0 ≤ c ∧ c ≤ 255) ∧ bitRow tag a b c = cs := by
  cases cs with
  | nil => exact absurd h.1 (by decide)
  | cons tag rest =>
    rcases List.forall_mem_cons.mp h.2 with ⟨htag, hbits⟩
    have hrest : IsBitRow (8 + (8 + 8)) rest := ⟨Nat.succ.inj h.1, hbits⟩
    rcases hrest.split with ⟨ha, hbc⟩
    rcases hbc.split with ⟨hb, hc⟩
    rcases Byte.exists_field ha with ⟨a, ha, hfield⟩
    rcases Byte.exists_field hb with ⟨b, hb, hfield'⟩
    rcases Byte.exists_field hc with ⟨c, hc, hfield''⟩
    refine ⟨tag, a, b, c, htag, ha, hb, hc, ?_⟩
    rw [bitRow, hfield, hfield', hfield'', List.append_assoc, List.take_append_drop,
      List.take_append_drop]

/-- Any row of 25 bits is written for a cell whose fields fit into it. -/
theorem exists_encode {text : String} (h : IsBitRow width text.toList) :
    ∃ c : Cell, c.Fits ∧ c.encode = text := by
  rcases exists_bitRow h with ⟨tag, a, b, c, htag, ha, hb, hc, hrow⟩
  rcases htag with rfl | rfl
  · refine ⟨.subleq a b c, ⟨ha, hb, hc⟩, ?_⟩
    rw [← String.toList_inj, toList_encode]
    exact hrow
  · -- the immediate value is the signed byte with the pattern of the first field
    refine ⟨.load (Byte.decode a) b c, ⟨Byte.decode_mem a, hb, hc⟩, ?_⟩
    rw [← String.toList_inj, toList_encode, ← hrow]
    exact bitRow_eq_iff.mpr ⟨rfl, Byte.decode_emod a, rfl, rfl⟩

/-- The cell that a text stands for is the one that fits and is written as this text. -/
theorem decode_eq_ok_iff {text : String} {c : Cell} :
    decode text = .ok c ↔ c.Fits ∧ c.encode = text := by
  have hencode : ∀ {c : Cell}, c.Fits → decode c.encode = .ok c := by
    intro c hc
    rw [decode_encode, normalise_eq hc]
  constructor
  · intro h
    have hrow : IsBitRow width text.toList :=
      Image.isBitRow_of_decode (by rwa [String.ofList_toList])
    rcases exists_encode hrow with ⟨c', hfits, rfl⟩
    cases (hencode hfits).symm.trans h
    exact ⟨hfits, rfl⟩
  · rintro ⟨hfits, rfl⟩
    exact hencode hfits

theorem decode_of_not_isBitRow {text : String} (h : ¬IsBitRow width text.toList) :
    decode text = .error
      (if text.toList.length = width then .notBinary text else .length text.toList.length) := by
  unfold decode
  dsimp only
  by_cases hlength : text.toList.length = width
  · rw [if_neg (not_not.mpr hlength), if_pos hlength]
    cases hdigits : text.toList.mapM Text.bitValue? with
    | none => rfl
    | some digits =>
      exact absurd ⟨hlength, (Text.mapM_bitValue?_eq_some_iff.mp hdigits).1⟩ h
  · rw [if_pos hlength, if_neg hlength]

/-- The bits of cells. Any cell is written as 25 bits, two cells as the same bits exactly if they
are of one kind and their fields are congruent modulo 256. A text is decoded exactly if it is a row
of 25 bits; any other is refused for its length, or else for its characters. What is decoded is
written as the text it was read from, and it has bytes for addresses and, in a load, a signed byte
for the immediate value. The fields are a case of the rows of bits of any width, of which there
is one at least: such a row has exactly these many bits, and writes the number modulo the power of
two. -/
theorem encode_decode_exact :
    (∀ c : Cell, IsBitRow 25 c.encode.toList) ∧
    (∀ c c' : Cell, c.encode = c'.encode ↔ c.Congruent c') ∧
    (∀ text, (∃ c, decode text = .ok c) ↔ IsBitRow 25 text.toList) ∧
    (∀ text, ¬IsBitRow 25 text.toList → decode text = .error
      (if text.toList.length = 25 then .notBinary text else .length text.toList.length)) ∧
    (∀ text c, decode text = .ok c → c.encode = text ∧ c.Fits) ∧
    ∀ v w : Int, 1 ≤ w → ∃ row, Byte.bitField v w = .ok row ∧ IsBitRow w.toNat row.toList ∧
      bitRowValue row.toList = v % 2 ^ w.toNat := by
  refine ⟨isBitRow_encode, fun c c' => encode_eq_iff_congruent, ?_, ?_, ?_, ?_⟩
  · intro text
    constructor
    · rintro ⟨c, hc⟩
      rw [← (decode_eq_ok_iff.mp hc).2]
      exact isBitRow_encode c
    · intro hrow
      rcases exists_encode hrow with ⟨c, hc⟩
      exact ⟨c, decode_eq_ok_iff.mpr hc⟩
  · intro text
    exact decode_of_not_isBitRow
  · intro text c hc
    exact (decode_eq_ok_iff.mp hc).symm
  · intro v w hw
    exact Byte.bitField_eq v hw

/-- The load of -128 into the port's cell is read and written as the same bits; a cell that is
congruent to it has these bits too; a text of two bits is none of a cell, and neither is one that
has another digit among its 25; and -5 has twelve bits in a field of twelve. -/
theorem encode_decode_exact_load :
    (decode "1100000001111111100000001" = .ok (.load (-128) 255 1) ∧
      (load (-128) 255 1).encode = "1100000001111111100000001" ∧ (load (-128) 255 1).Fits) ∧
    (load 128 (-1) 257).encode = (load (-128) 255 1).encode ∧
    decode "10" = .error (.length 2) ∧
    decode "1200000001111111100000001" = .error (.notBinary "1200000001111111100000001") ∧
    ∃ row, Byte.bitField (-5) 12 = .ok row ∧ IsBitRow 12 row.toList ∧
      bitRowValue row.toList = 4091 := by
  rcases encode_decode_exact with ⟨-, hcongruent, -, herror, hdecode, hbits⟩
  have hload : decode "1100000001111111100000001" = .ok (.load (-128) 255 1) := by decide +kernel
  refine ⟨⟨hload, hdecode _ _ hload⟩, ?_, ?_, ?_, hbits (-5) 12 (by decide)⟩
  · exact (hcongruent _ _).mpr ⟨rfl, rfl, rfl⟩
  · exact herror "10" fun h => absurd h.1 (by decide)
  · exact herror "1200000001111111100000001" fun h => absurd (h.2 '2' (by decide)) (by decide)

end Cell

end Subleq
