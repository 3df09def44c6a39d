import Mathlib
import Subleq.Image.Reader
import Subleq.Proofs.Digits

/-!
# Subleq.Proofs.RoundTrip — images are read back

Reading the image of a program store gives a store with an entry at each of the 256 addresses: the
cell that was there, its fields cut to eight bits (`Image.read_render`). A cell whose fields are
bytes comes back as it was (`Cell.normalise_eq`).
-/

namespace Subleq

namespace Text

/-! ## Trimming -/

theorem trimStart_append {bs cs : List Char} (h : ∀ b ∈ bs, isBlank b = true) :
    trimStart (bs ++ cs) = trimStart cs := by
  induction bs with
  | nil => rfl
  | cons b bs ih =>
    rw [List.cons_append, trimStart_cons, if_pos (h b (by simp))]
    exact ih fun c hc => h c (by simp [hc])

theorem trimStart_of_not_blank {c : Char} (h : isBlank c = false) (cs : List Char) :
    trimStart (c :: cs) = c :: cs := by
  rw [trimStart_cons]
  simp [h]

theorem trimEnd_concat {c : Char} (h : isBlank c = false) (cs : List Char) :
    trimEnd (cs ++ [c]) = cs ++ [c] := by
  induction cs with
  | nil => simp [trimEnd, h]
  | cons d ds ih =>
    rw [List.cons_append, trimEnd, ih]
    cases ds <;> rfl

theorem trimEnd_append {cs bs : List Char} (h : ∀ b ∈ bs, isBlank b = true) :
    trimEnd (cs ++ bs) = trimEnd cs := by
  induction cs with
  | nil => exact trimEnd_eq_nil_iff.mpr h
  | cons c cs ih => rw [List.cons_append, trimEnd, trimEnd, ih]

/-- A text that neither begins nor ends with a blank is what is left of it with blanks around. -/
theorem trim_eq (pre post : List Char) (hpre : ∀ b ∈ pre, isBlank b = true)
    (hpost : ∀ b ∈ post, isBlank b = true) {c d : Char} {cs ds : List Char}
    (hc : isBlank c = false) (hd : isBlank d = false) (hends : c :: cs = ds ++ [d]) :
    trim (pre ++ (c :: cs) ++ post) = c :: cs := by
  unfold trim
  rw [List.append_assoc, trimStart_append hpre, List.cons_append, trimStart_of_not_blank hc,
    ← List.cons_append, trimEnd_append hpost, hends, trimEnd_concat hd]

end Text

/-! ## Cells -/

namespace Byte

/-- The bits of a field of eight. -/
def field (v : Int) : List Char := bitChars 8 (v % 256).toNat

theorem toList_bits (v : Int) : (bits v 8).toList = field v := by
  simp [bits, field]

theorem digits_of_field (v : Int) :
    ∃ ds, (field v).mapM Text.bitValue? = some ds ∧ ds.length = 8 ∧
      (Text.ofDigits 2 ds : Int) = v % 256 := by
  rcases Text.digits_of_bitChars 8 (v % 256).toNat with ⟨ds, hds, hlength, hvalue⟩
  refine ⟨ds, hds, hlength, ?_⟩
  rw [hvalue]
  omega

theorem mem_bitChars {c : Char} {width n : Nat} (h : c ∈ bitChars width n) : c = '0' ∨ c = '1' := by
  induction width generalizing n with
  | zero => simp [bitChars] at h
  | succ width ih =>
    rw [bitChars] at h
    rcases List.mem_append.mp h with h | h
    · exact ih h
    · rw [List.mem_singleton.mp h, bitChar]
      split
      · exact Or.inl rfl
      · exact Or.inr rfl

end Byte

namespace Cell

/-- The cell with its fields cut to eight bits. -/
def normalise : Cell → Cell
  | load v d next => load (Byte.decode v) (d % 256) (next % 256)
  | subleq a b target => subleq (a % 256) (b % 256) (target % 256)

/-- The fields of the cell survive being written in eight bits. -/
def Fits : Cell → Prop
  | load v d next => (-128 ≤ v ∧ v ≤ 127) ∧ (0 ≤ d ∧ d ≤ 255) ∧ (0 ≤ next ∧ next ≤ 255)
  | subleq a b target => (0 ≤ a ∧ a ≤ 255) ∧ (0 ≤ b ∧ b ≤ 255) ∧ (0 ≤ target ∧ target ≤ 255)

theorem normalise_eq {c : Cell} (h : c.Fits) : c.normalise = c := by
  cases c with
  | load v d next =>
    rcases h with ⟨hv, hd, hnext⟩
    have hdecode : Byte.decode v = v := by
      simp only [Byte.decode]
      split <;> omega
    have hd' : d % 256 = d := by omega
    have hnext' : next % 256 = next := by omega
    rw [normalise, hdecode, hd', hnext']
  | subleq a b target =>
    rcases h with ⟨ha, hb, htarget⟩
    have ha' : a % 256 = a := by omega
    have hb' : b % 256 = b := by omega
    have htarget' : target % 256 = target := by omega
    rw [normalise, ha', hb', htarget']

/-- The bits of a cell as they are written: the tag and three fields. -/
def bitRow (tag : Char) (a b c : Int) : List Char :=
  tag :: (Byte.field a ++ Byte.field b ++ Byte.field c)

theorem toList_encode (c : Cell) : c.encode.toList =
    match c with
    | load v d next => bitRow '1' v d next
    | subleq a b target => bitRow '0' a b target := by
  cases c <;> simp [encode, bitRow, Byte.toList_bits]

theorem mem_bitRow {tag x : Char} {a b c : Int} (htag : tag = '0' ∨ tag = '1')
    (hx : x ∈ bitRow tag a b c) : x = '0' ∨ x = '1' := by
  unfold bitRow Byte.field at hx
  simp only [List.mem_cons, List.mem_append] at hx
  rcases hx with rfl | (hx | hx) | hx
  · exact htag
  · exact Byte.mem_bitChars hx
  · exact Byte.mem_bitChars hx
  · exact Byte.mem_bitChars hx

theorem byteAt_append (before ds after : List Nat) {start : Nat} (hbefore : before.length = start)
    (hds : ds.length = 8) : byteAt (before ++ (ds ++ after)) start = Text.ofDigits 2 ds := by
  unfold byteAt
  rw [← hbefore, List.drop_left, ← hds, List.take_left]

/-- The digits of a row of bits, and what its fields are worth. -/
theorem digits_of_bitRow {tag : Char} {t : Nat} (htag : Text.bitValue? tag = some t) (a b c : Int) :
    ∃ digits, (bitRow tag a b c).mapM Text.bitValue? = some digits ∧ digits.head? = some t ∧
      byteAt digits 1 = a % 256 ∧ byteAt digits 9 = b % 256 ∧ byteAt digits 17 = c % 256 := by
  rcases Byte.digits_of_field a with ⟨as, has, hlength, hvalue⟩
  rcases Byte.digits_of_field b with ⟨bs, hbs, hlength', hvalue'⟩
  rcases Byte.digits_of_field c with ⟨cs, hcs, hlength'', hvalue''⟩
  have hfirst := byteAt_append [t] as (bs ++ cs) rfl hlength
  have hsecond := byteAt_append (t :: as) bs cs (by simp [hlength] : _ = 9) hlength'
  have hthird := byteAt_append (t :: (as ++ bs)) cs [] (by simp [hlength, hlength'] : _ = 17) hlength''
  refine ⟨t :: (as ++ (bs ++ cs)), by simp [bitRow, htag, has, hbs, hcs], rfl, ?_, ?_, ?_⟩
  · exact hfirst.trans hvalue
  · exact hsecond.trans hvalue'
  · rw [List.append_nil, List.cons_append, List.append_assoc] at hthird
    exact hthird.trans hvalue''

theorem length_bitRow (tag : Char) (a b c : Int) : (bitRow tag a b c).length = width := by
  simp [bitRow, Byte.field, Byte.length_bitChars, width]

/-- The bits of a cell stand for the cell with its fields cut to eight bits. -/
theorem decode_encode (c : Cell) : decode c.encode = .ok c.normalise := by
  cases c with
  | load v d next =>
    rcases digits_of_bitRow (rfl : Text.bitValue? '1' = some 1) v d next with
      ⟨digits, hdigits, hhead, hv, hd, hnext⟩
    have hdecode : Byte.decode (v % 256) = Byte.decode v := by
      simp only [Byte.decode, Int.emod_emod_of_dvd v (dvd_refl 256)]
    simp [decode, toList_encode, length_bitRow, hdigits, hhead, hv, hd, hnext, hdecode, normalise]
  | subleq a b target =>
    rcases digits_of_bitRow (rfl : Text.bitValue? '0' = some 0) a b target with
      ⟨digits, hdigits, hhead, ha, hb, htarget⟩
    simp [decode, toList_encode, length_bitRow, hdigits, hhead, ha, hb, htarget, normalise]

end Cell

/-! ## Records -/

namespace Image

theorem cutAt_eq {sep : Char} {line before after : List Char} (h : sep ∉ before)
    (hline : line = before ++ sep :: after) : cutAt sep line = some (before, after) := by
  have hne : ∀ c ∈ before, (c != sep) = true := by
    intro c hc
    simp only [bne_iff_ne, ne_eq]
    rintro rfl
    exact h hc
  unfold cutAt
  rw [hline, List.dropWhile_append_of_pos hne, List.takeWhile_append_of_pos hne]
  simp

/-- A row of bits. -/
def IsBits (cs : List Char) : Prop := cs ≠ [] ∧ ∀ c ∈ cs, c = '0' ∨ c = '1'

theorem isBits_field (v : Int) : IsBits (Byte.field v) := by
  constructor
  · intro hnil
    have hlength := Byte.length_bitChars 8 (v % 256).toNat
    rw [Byte.field] at hnil
    simp [hnil] at hlength
  · exact fun c hc => Byte.mem_bitChars hc

theorem isBits_encode (c : Cell) : IsBits c.encode.toList := by
  rw [Cell.toList_encode]
  cases c with
  | load v d next => exact ⟨by simp [Cell.bitRow], fun x hx => Cell.mem_bitRow (Or.inr rfl) hx⟩
  | subleq a b target => exact ⟨by simp [Cell.bitRow], fun x hx => Cell.mem_bitRow (Or.inl rfl) hx⟩

theorem IsBits.not_mem {cs : List Char} (h : IsBits cs) {c : Char} (h0 : c ≠ '0') (h1 : c ≠ '1') :
    c ∉ cs := by
  intro hc
  rcases h.2 c hc with rfl | rfl
  · exact h0 rfl
  · exact h1 rfl

/-- Between blanks, the first and the last bit are found again. -/
theorem IsBits.trim {cs pre post : List Char} (h : IsBits cs)
    (hpre : ∀ b ∈ pre, Text.isBlank b = true) (hpost : ∀ b ∈ post, Text.isBlank b = true) :
    Text.trim (pre ++ cs ++ post) = cs := by
  have hblank : ∀ c ∈ cs, Text.isBlank c = false := by
    intro c hc
    rcases h.2 c hc with rfl | rfl <;> decide
  cases cs with
  | nil => exact absurd rfl h.1
  | cons c cs =>
    rcases List.eq_nil_or_concat' (c :: cs) with hnil | ⟨ds, d, hlast⟩
    · cases hnil
    · exact Text.trim_eq pre post hpre hpost (hblank c (by simp)) (hblank d (by rw [hlast]; simp)) hlast

/-- The characters of a record. -/
theorem toList_record (a : Int) (c : Cell) : (record a c).toList =
    Byte.field a ++ ' ' :: ':' :: ' ' :: (c.encode.toList ++ [' ', ';']) := by
  have hrecord : record a c = Byte.bits a 8 ++ " : " ++ c.encode ++ " ;" := rfl
  rw [hrecord]
  simp [Byte.toList_bits]

theorem recordAddress?_field {a : Int} (ha : 0 ≤ a) (ha' : a < 256) :
    recordAddress? (Byte.field a) = some a := by
  rcases Byte.digits_of_field a with ⟨ds, hds, _, hvalue⟩
  have hmod : a % 256 = a := by omega
  have hlength : (Byte.field a).length = addressWidth := Byte.length_bitChars _ _
  simp [recordAddress?, hlength, hds, hvalue, hmod]

/-- A record is read as the address and the cell that it was written for. -/
theorem readRecord_record {a : Int} (ha : 0 ≤ a) (ha' : a < 256) (c : Cell) :
    readRecord (record a c).toList = .ok (a, c.normalise) := by
  have hfield := isBits_field a
  have hencode := isBits_encode c
  have hblank : ∀ b ∈ [' '], Text.isBlank b = true := by
    intro b hb
    rw [List.mem_singleton.mp hb]
    rfl
  have hcolon : cutAt ':' (record a c).toList =
      some (Byte.field a ++ [' '], ' ' :: (c.encode.toList ++ [' ', ';'])) := by
    apply cutAt_eq
    · simp [hfield.not_mem]
    · simp [toList_record]
  have hsemicolon : cutAt ';' (' ' :: (c.encode.toList ++ [' ', ';'])) =
      some ([' '] ++ c.encode.toList ++ [' '], []) := by
    apply cutAt_eq
    · simp [hencode.not_mem]
    · simp
  have honce : (' ' :: (c.encode.toList ++ [' ', ';'])).contains ':' = false := by
    simp [hencode.not_mem]
  have haddress : Text.trim ([] ++ Byte.field a ++ [' ']) = Byte.field a :=
    hfield.trim (by simp) hblank
  have hdata := hencode.trim hblank hblank
  rw [List.nil_append] at haddress
  unfold readRecord
  simp only [hcolon, honce, hsemicolon]
  simp only [haddress, hdata, recordAddress?_field ha ha', String.ofList_toList,
    Cell.decode_encode]
  rfl

/-! ## The whole text -/

/-- Lines of the header that are passed over. -/
def isPassed (line : String) : Bool :=
  Text.trim line.toList != beginLine.toList && headerDefect? (Text.trim line.toList) == none

theorem readHeader_append (n : Nat) {lines : List String} (h : ∀ l ∈ lines, isPassed l = true)
    (rest : List (List Char)) :
    readHeader n (lines.map String.toList ++ rest) = readHeader (n + lines.length) rest := by
  induction lines generalizing n with
  | nil => rfl
  | cons l ls ih =>
    have hl := h l (by simp)
    simp only [isPassed, Bool.and_eq_true, bne_iff_ne, ne_eq, beq_iff_eq] at hl
    rw [List.map_cons, List.cons_append, readHeader, if_neg hl.1, hl.2]
    simp only
    rw [ih (n + 1) fun m hm => h m (by simp [hm])]
    congr 1
    simp only [List.length_cons]
    omega

/-- The header leads up to the records. -/
theorem readHeader_header (rest : List (List Char)) :
    readHeader 1 (header.map String.toList ++ rest) = readRecords 7 ∅ rest := by
  have hpassed : ∀ l ∈ header.dropLast, isPassed l = true := by decide +kernel
  have hlast : header = header.dropLast ++ [beginLine] := by decide +kernel
  have hlength : header.dropLast.length = 5 := by decide +kernel
  rw [hlast, List.map_append, List.append_assoc, readHeader_append 1 hpassed, hlength]
  rfl

/-- A record is not trimmed, not blank and not the last line. -/
theorem trim_record (a : Int) (c : Cell) : Text.trim (record a c).toList = (record a c).toList ∧
    (record a c).toList ≠ endLine.toList ∧ (record a c).toList ≠ [] := by
  have hcolon : ':' ∈ (record a c).toList := by simp [toList_record]
  refine ⟨?_, ?_, List.ne_nil_of_mem hcolon⟩
  · -- the first character is a bit and the last one a semicolon
    have hfield := isBits_field a
    rw [toList_record]
    cases hcs : Byte.field a with
    | nil => exact absurd hcs hfield.1
    | cons b bs =>
      have hb : Text.isBlank b = false := by
        rcases hfield.2 b (by simp [hcs]) with rfl | rfl <;> decide
      have htrim := Text.trim_eq [] [] (by simp) (by simp) hb
        (by decide : Text.isBlank ';' = false)
        (by simp : b :: (bs ++ ' ' :: ':' :: ' ' :: (c.encode.toList ++ [' ', ';'])) =
          (b :: (bs ++ ' ' :: ':' :: ' ' :: (c.encode.toList ++ [' ']))) ++ [';'])
      simpa using htrim
  · intro heq
    rw [heq] at hcolon
    revert hcolon
    decide

/-- An address that is not among those to come stays free. -/
theorem contains_insert_of_ne {q : Program} {a b : Int} (hne : a ≠ b) (c : Cell)
    (h : q.contains b = false) : (q.insert a c).contains b = false := by
  rw [Std.ExtTreeMap.contains_insert]
  simp [h, hne]

/-- Records of different addresses are read one after the other. -/
theorem readRecords_append (n : Nat) (p q : Program) {addresses : List Int}
    (hmem : ∀ a ∈ addresses, 0 ≤ a ∧ a < 256) (hnodup : addresses.Nodup)
    (hfresh : ∀ a ∈ addresses, q.contains a = false) (rest : List (List Char)) :
    readRecords n q (addresses.map (fun a => (record a (p.fetch a)).toList) ++ rest) =
      readRecords (n + addresses.length)
        (addresses.foldl (fun q a => q.insert a (p.fetch a).normalise) q) rest := by
  induction addresses generalizing n q with
  | nil => rfl
  | cons a as ih =>
    rcases trim_record a (p.fetch a) with ⟨htrim, hend, hne⟩
    have ha := hmem a (by simp)
    have hrecord := readRecord_record ha.1 ha.2 (p.fetch a)
    rw [List.map_cons, List.cons_append, readRecords]
    simp only [htrim, if_neg hend, if_neg hne, hrecord, hfresh a (by simp), Bool.false_eq_true,
      if_false, List.foldl_cons, List.length_cons]
    rw [List.nodup_cons] at hnodup
    have hcount : n + (as.length + 1) = n + 1 + as.length := by omega
    rw [hcount]
    refine ih (n + 1) _ (fun b hb => hmem b (by simp [hb])) hnodup.2 ?_
    intro b hb
    have hab : a ≠ b := fun heq => hnodup.1 (heq ▸ hb)
    exact contains_insert_of_ne hab _ (hfresh b (by simp [hb]))

/-- The store that is read from an image: the cells at the 256 addresses, cut to eight bits. -/
def readBack (p : Program) : Program :=
  addresses.foldl (fun q a => q.insert a (p.fetch a).normalise) ∅

theorem mem_addresses {a : Int} : a ∈ addresses ↔ 0 ≤ a ∧ a < 256 := by
  simp only [addresses, List.mem_map, List.mem_range, depth]
  constructor
  · rintro ⟨n, hn, rfl⟩
    omega
  · intro h
    exact ⟨a.toNat, by omega, by omega⟩

theorem nodup_addresses : addresses.Nodup :=
  List.nodup_range.map fun _ _ h => Int.ofNat.inj h

/-- No line of an image holds a line boundary. -/
theorem not_isLineBreak {p : Program} {l : String}
    (hl : l ∈ header ++ addresses.map (fun a => record a (p.fetch a)) ++ [endLine]) :
    ∀ c ∈ l.toList, Text.isLineBreak c = false := by
  rcases List.mem_append.mp hl with hl | hl
  · rcases List.mem_append.mp hl with hl | hl
    · have hheader : (header.all fun l => l.toList.all fun c => Text.isLineBreak c == false) =
          true := by decide +kernel
      simp only [List.all_eq_true, beq_iff_eq] at hheader
      exact hheader l hl
    · rcases List.mem_map.mp hl with ⟨a, _, rfl⟩
      intro c hc
      rw [toList_record] at hc
      have hbit : c = '0' ∨ c = '1' → Text.isLineBreak c = false := by
        rintro (rfl | rfl) <;> rfl
      simp only [List.mem_append, List.mem_cons, List.not_mem_nil, or_false] at hc
      rcases hc with hc | rfl | rfl | rfl | hc | rfl | rfl
      · exact hbit ((isBits_field a).2 c hc)
      · rfl
      · rfl
      · rfl
      · exact hbit ((isBits_encode _).2 c hc)
      · rfl
      · rfl
  · have hend : (endLine.toList.all fun c => Text.isLineBreak c == false) = true := by
      decide +kernel
    simp only [List.all_eq_true, beq_iff_eq] at hend
    rw [List.mem_singleton.mp hl]
    exact hend

/-- Any image that is written can be read. -/
theorem read_render (p : Program) : read (render p) = .ok (readBack p) := by
  unfold read render
  rw [Text.lines_unlines fun l hl => not_isLineBreak hl, List.map_append, List.map_append,
    List.append_assoc, readHeader_header, List.map_map]
  have hrecords := readRecords_append 7 p ∅ (fun a ha => mem_addresses.mp ha) nodup_addresses
    (fun a _ => Std.ExtTreeMap.contains_empty) ([endLine].map String.toList)
  refine hrecords.trans ?_
  have hend : Text.trim endLine.toList = endLine.toList := by decide +kernel
  rw [List.map_cons, readRecords, if_pos hend]
  rfl

/-! ## What is read back -/

theorem size_foldl_insert (f : Int → Cell) {as : List Int} {q : Program} (hnodup : as.Nodup)
    (hfresh : ∀ a ∈ as, q.contains a = false) :
    (as.foldl (fun q a => q.insert a (f a)) q).size = q.size + as.length := by
  induction as generalizing q with
  | nil => rfl
  | cons a as ih =>
    rw [List.nodup_cons] at hnodup
    rw [List.foldl_cons, ih hnodup.2]
    · rw [Std.ExtTreeMap.size_insert, hfresh a (by simp), List.length_cons]
      simp only [Bool.false_eq_true, if_false]
      omega
    · intro b hb
      have hab : a ≠ b := fun heq => hnodup.1 (heq ▸ hb)
      exact contains_insert_of_ne hab _ (hfresh b (by simp [hb]))

theorem get?_readBack (p : Program) (a : Int) :
    (readBack p)[a]? = if 0 ≤ a ∧ a < 256 then some (p.fetch a).normalise else none := by
  rw [readBack, AddressMap.get?_foldl_insert]
  simp [mem_addresses]

theorem size_readBack (p : Program) : (readBack p).size = 256 := by
  rw [readBack, size_foldl_insert _ nodup_addresses fun a _ => Std.ExtTreeMap.contains_empty]
  simp [addresses, depth]

/-- A store that fits into an image is the same to the machine when it is read back. -/
theorem fetch_readBack {p : Program} (hfits : ∀ a, (p.fetch a).Fits)
    (hempty : ∀ a, ¬(0 ≤ a ∧ a < 256) → p.fetch a = .empty) (a : Int) :
    (readBack p).fetch a = p.fetch a := by
  unfold Program.fetch
  rw [get?_readBack]
  split
  · exact Cell.normalise_eq (hfits a)
  · next hout => exact (hempty a hout).symm

end Image

end Subleq
