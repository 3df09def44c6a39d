import Mathlib
import Subleq.Proofs.Placement
import Subleq.Proofs.RoundTrip

/-!
# Subleq.Proofs.Grammar — which texts are images

What an image is, is said here without any reading: which lines are declarations (`Declares`) and
records (`IsRecord`), and how these follow one another (`IsImage`). The reader accepts exactly the
texts that are images, and in any other text it points at the first line with which the lines so far
are no beginning of an image. Since any row of lines is either good as a whole or has a first line that
spoils it (`good_or_spoiled`), it is enough to follow the reader through good lines and to see that it
stops at the next one.
-/

namespace Subleq

namespace Text

/-! ## Blanks -/

/-- All characters are blanks. -/
def Blank (cs : List Char) : Prop := ∀ c ∈ cs, isBlank c = true

theorem Blank.append {bs cs : List Char} (hb : Blank bs) (hc : Blank cs) : Blank (bs ++ cs) := by
  intro c hmem
  rcases List.mem_append.mp hmem with h | h
  · exact hb c h
  · exact hc c h

/-- What trimming at the start takes away. -/
theorem exists_trimStart (cs : List Char) : ∃ bs, Blank bs ∧ cs = bs ++ trimStart cs :=
  ⟨cs.takeWhile isBlank, fun _ h => List.mem_takeWhile_imp h,
    (List.takeWhile_append_dropWhile).symm⟩

/-- What trimming takes away. -/
theorem exists_trim (cs : List Char) :
    ∃ pre post, Blank pre ∧ Blank post ∧ cs = pre ++ trim cs ++ post := by
  rcases exists_trimStart cs with ⟨pre, hpre, hstart⟩
  rcases append_trimEnd (trimStart cs) with ⟨post, hend, hpost⟩
  refine ⟨pre, post, hpre, hpost, ?_⟩
  rw [List.append_assoc]
  exact hstart.trans (congrArg (pre ++ ·) hend)

theorem trim_eq_nil_iff {cs : List Char} : trim cs = [] ↔ Blank cs := by
  constructor
  · intro h
    rcases exists_trim cs with ⟨pre, post, hpre, hpost, hcs⟩
    rw [hcs, h, List.append_nil]
    exact hpre.append hpost
  · intro h
    have hstart : trimStart (cs ++ []) = [] := trimStart_append h
    rw [List.append_nil] at hstart
    rw [trim, hstart, trimEnd_nil]

/-- The printable characters of ASCII are no blanks. -/
theorem isBlank_of_graphic {c : Char} (h : 33 ≤ c.toNat) (h' : c.toNat ≤ 126) :
    isBlank c = false := by
  rw [← Bool.not_eq_true]
  intro hblank
  simp only [isBlank, Bool.or_eq_true, Bool.and_eq_true, decide_eq_true_eq, beq_iff_eq] at hblank
  omega

/-- A row of characters that are no blanks ends before blanks and a character of another kind. -/
theorem Blank.head?_append_cons {bs : List Char} (h : Blank bs) {p : Char → Bool}
    (hp : ∀ c, p c = true → isBlank c = false) {d : Char} (hd : p d = false) (cs : List Char) :
    ∀ c ∈ (bs ++ d :: cs).head?, p c = false := by
  intro c hc
  cases bs with
  | nil => rwa [← Option.some.inj hc]
  | cons b bs =>
    rw [← Option.some.inj hc, ← Bool.not_eq_true]
    intro hkind
    have hblank := h b (by simp)
    rw [hp b hkind] at hblank
    cases hblank

/-- Blanks are trimmed up to a character that is none. -/
theorem Blank.trimStart_append_cons {bs : List Char} (h : Blank bs) {c : Char}
    (hc : isBlank c = false) (cs : List Char) : trimStart (bs ++ c :: cs) = c :: cs := by
  rw [trimStart_append h, trimStart_of_not_blank hc]

/-- A row of characters of a kind, up to one of another kind. -/
theorem takeWhile_append_dropWhile_eq {p : Char → Bool} {xs ys : List Char}
    (hxs : ∀ c ∈ xs, p c = true) (hys : ∀ c ∈ ys.head?, p c = false) :
    (xs ++ ys).takeWhile p = xs ∧ (xs ++ ys).dropWhile p = ys := by
  rw [List.takeWhile_append_of_pos hxs, List.dropWhile_append_of_pos hxs]
  cases ys with
  | nil => simp
  | cons y ys => simp [hys y rfl]

/-- Bits that are read are bits. -/
theorem mapM_bitValue?_eq_some_iff {cs : List Char} {ds : List Nat} :
    cs.mapM bitValue? = some ds ↔
      (∀ c ∈ cs, c = '0' ∨ c = '1') ∧ ds = cs.map fun c => if c = '1' then 1 else 0 := by
  induction cs generalizing ds with
  | nil => simp [eq_comm]
  | cons c cs ih =>
    rw [List.mapM_cons]
    simp only [Option.bind_eq_bind, Option.bind_eq_some_iff, Option.pure_def, Option.some.injEq]
    constructor
    · rintro ⟨d, hd, ds', hds', rfl⟩
      rcases ih.mp hds' with ⟨hbits, rfl⟩
      unfold bitValue? at hd
      split_ifs at hd with h0 h1
      · cases hd
        exact ⟨List.forall_mem_cons.mpr ⟨Or.inl h0, hbits⟩, by simp [h0]⟩
      · cases hd
        exact ⟨List.forall_mem_cons.mpr ⟨Or.inr h1, hbits⟩, by simp [h1]⟩
    · rintro ⟨hbits, rfl⟩
      rcases List.forall_mem_cons.mp hbits with ⟨hc, hcs⟩
      refine ⟨if c = '1' then 1 else 0, ?_, _, ih.mpr ⟨hcs, rfl⟩, rfl⟩
      rcases hc with rfl | rfl <;> rfl

end Text

namespace Image

open Text

/-! ## Lines -/

/-- The line, without the blanks around it, is `KEY = VALUE;`, perhaps with blanks around the equals
sign and before the semicolon. -/
def Declares (line key value : List Char) : Prop :=
  (key ≠ [] ∧ ∀ c ∈ key, isKeyChar c = true) ∧ (value ≠ [] ∧ ∀ c ∈ value, isValueChar c = true) ∧
    ∃ bs bs' bs'', Blank bs ∧ Blank bs' ∧ Blank bs'' ∧
      trim line = key ++ bs ++ '=' :: (bs' ++ value ++ bs'' ++ [';'])

/-- A row of so many bits. -/
def IsBitRow (width : Nat) (cs : List Char) : Prop :=
  cs.length = width ∧ ∀ c ∈ cs, c = '0' ∨ c = '1'

/-- The number that a row of bits writes. -/
def bitRowValue (cs : List Char) : Int := ofDigits 2 (cs.map fun c => if c = '1' then 1 else 0)

/-- The line is `address : data ;`, with blanks anywhere around address and data and at the end: eight
bits for the address and 25 bits for the cell. -/
def IsRecord (line : List Char) (address : Int) (cell : Cell) : Prop :=
  ∃ field data, IsBitRow 8 field ∧ IsBitRow 25 data ∧
    (∃ bs bs₁ bs₂ bs₃ bs₄, Blank bs ∧ Blank bs₁ ∧ Blank bs₂ ∧ Blank bs₃ ∧ Blank bs₄ ∧
      line = bs ++ field ++ bs₁ ++ ':' :: (bs₂ ++ data ++ bs₃ ++ ';' :: bs₄)) ∧
    address = bitRowValue field ∧ Cell.decode (String.ofList data) = .ok cell

theorem cutAt_eq_some_iff {sep : Char} {line before after : List Char} :
    cutAt sep line = some (before, after) ↔ line = before ++ sep :: after ∧ sep ∉ before := by
  constructor
  · intro h
    unfold cutAt at h
    split at h
    · cases h
    · next c rest hdrop =>
      cases h
      have hsep : c = sep := by
        have hhead := List.head_dropWhile_not (· != sep) (l := line) (by simp [hdrop])
        simpa [hdrop] using hhead
      subst hsep
      refine ⟨by rw [← hdrop, List.takeWhile_append_dropWhile], fun hmem => ?_⟩
      have himp := List.mem_takeWhile_imp hmem
      simp at himp
  · rintro ⟨rfl, hsep⟩
    exact cutAt_eq hsep rfl

theorem recordAddress?_eq_some_iff {field : List Char} {a : Int} :
    recordAddress? field = some a ↔ IsBitRow 8 field ∧ a = bitRowValue field := by
  unfold recordAddress? IsBitRow bitRowValue
  split
  · next hlength => simp [show field.length ≠ 8 from hlength]
  · next hlength =>
    have hlength' : field.length = 8 := not_not.mp hlength
    simp only [Option.map_eq_some_iff, mapM_bitValue?_eq_some_iff, hlength', true_and]
    constructor
    · rintro ⟨ds, ⟨hbits, rfl⟩, rfl⟩
      exact ⟨hbits, rfl⟩
    · rintro ⟨hbits, rfl⟩
      exact ⟨_, ⟨hbits, rfl⟩, rfl⟩

/-- Only rows of 25 bits are decoded. -/
theorem isBitRow_of_decode {data : List Char} {cell : Cell}
    (h : Cell.decode (String.ofList data) = .ok cell) : IsBitRow 25 data := by
  unfold Cell.decode at h
  simp only [String.toList_ofList] at h
  split at h
  · cases h
  · next hlength =>
    split at h
    · cases h
    · next digits hdigits => exact ⟨not_not.mp hlength, (mapM_bitValue?_eq_some_iff.mp hdigits).1⟩

theorem IsBitRow.isBits {width : Nat} {cs : List Char} (h : IsBitRow (width + 1) cs) : IsBits cs :=
  ⟨List.ne_nil_of_length_eq_add_one h.1, h.2⟩

/-- Blanks have no colon, and neither has a row of bits. -/
theorem Blank.not_mem {bs : List Char} (h : Blank bs) {c : Char} (hc : isBlank c = false) :
    c ∉ bs := by
  intro hmem
  rw [h c hmem] at hc
  cases hc

/-- The parts of a record are found again. -/
theorem readRecord_of_isRecord {line : List Char} {address : Int} {cell : Cell}
    (h : IsRecord line address cell) : readRecord line = .ok (address, cell) := by
  rcases h with ⟨field, data, hfield, hdata, ⟨bs, bs₁, bs₂, bs₃, bs₄, hbs, hbs₁, hbs₂, hbs₃, hbs₄,
    hline⟩, haddress, hcell⟩
  have hfield' := hfield.isBits
  have hdata' := hdata.isBits
  have hcolon : cutAt ':' line = some (bs ++ field ++ bs₁, bs₂ ++ data ++ bs₃ ++ ';' :: bs₄) := by
    refine cutAt_eq ?_ (by simpa using hline)
    simp [Blank.not_mem hbs, Blank.not_mem hbs₁, hfield'.not_mem, isBlank_of_graphic]
  have honce : (bs₂ ++ data ++ bs₃ ++ ';' :: bs₄).contains ':' = false := by
    simp [Blank.not_mem hbs₂, Blank.not_mem hbs₃, Blank.not_mem hbs₄, hdata'.not_mem,
      isBlank_of_graphic]
  have hsemicolon : cutAt ';' (bs₂ ++ data ++ bs₃ ++ ';' :: bs₄) =
      some (bs₂ ++ data ++ bs₃, bs₄) := by
    refine cutAt_eq ?_ rfl
    simp [Blank.not_mem hbs₂, Blank.not_mem hbs₃, hdata'.not_mem, isBlank_of_graphic]
  have hfound := recordAddress?_eq_some_iff.mpr ⟨hfield, haddress⟩
  unfold readRecord
  simp only [hcolon, honce, hsemicolon]
  simp only [trim_eq_nil_iff.mpr hbs₄, hfield'.trim hbs hbs₁, hfound, hdata'.trim hbs₂ hbs₃, hcell]
  rfl

theorem isRecord_of_readRecord {line : List Char} {address : Int} {cell : Cell}
    (h : readRecord line = .ok (address, cell)) : IsRecord line address cell := by
  unfold readRecord at h
  simp only [bind, Except.bind, pure, Except.pure, throw, throwThe, MonadExceptOf.throw] at h
  -- of all ways through the reader, one only comes to a record, and what it has checked is kept
  split at h
  · next before after hcolon =>
    split at h
    · cases h
    · split at h
      · next data trailer hsemicolon =>
        split at h
        · cases h
        · next htrailer =>
          split at h
          · next address' haddress =>
            cases hdecode : Cell.decode (String.ofList (trim data)) with
            | error cause =>
              rw [hdecode] at h
              cases h
            | ok cell' =>
              rw [hdecode] at h
              cases h
              rcases recordAddress?_eq_some_iff.mp haddress with ⟨hfield, hvalue⟩
              rcases exists_trim before with ⟨bs, bs₁, hbs, hbs₁, hbefore⟩
              rcases exists_trim data with ⟨bs₂, bs₃, hbs₂, hbs₃, hdata⟩
              have hbs₄ := trim_eq_nil_iff.mp (not_not.mp htrailer)
              refine ⟨trim before, trim data, hfield, isBitRow_of_decode hdecode,
                ⟨bs, bs₁, bs₂, bs₃, trailer, hbs, hbs₁, hbs₂, hbs₃, hbs₄, ?_⟩, hvalue, hdecode⟩
              rw [(cutAt_eq_some_iff.mp hcolon).1, (cutAt_eq_some_iff.mp hsemicolon).1, ← hbefore,
                ← hdata]
          · cases h
      · cases h
  · cases h

/-- The blanks around a record do not matter. -/
theorem isRecord_trim {line : List Char} {address : Int} {cell : Cell} :
    IsRecord (trim line) address cell ↔ IsRecord line address cell := by
  rcases exists_trim line with ⟨pre, post, hpre, hpost, hline⟩
  constructor
  · rintro ⟨field, data, hfield, hdata, ⟨bs, bs₁, bs₂, bs₃, bs₄, hbs, hbs₁, hbs₂, hbs₃, hbs₄,
      htrim⟩, hrest⟩
    refine ⟨field, data, hfield, hdata, ⟨pre ++ bs, bs₁, bs₂, bs₃, bs₄ ++ post, hpre.append hbs, hbs₁,
      hbs₂, hbs₃, hbs₄.append hpost, ?_⟩, hrest⟩
    rw [hline, htrim]
    simp
  · rintro ⟨field, data, hfield, hdata, ⟨bs, bs₁, bs₂, bs₃, bs₄, hbs, hbs₁, hbs₂, hbs₃, hbs₄,
      heq⟩, hrest⟩
    refine ⟨field, data, hfield, hdata, ⟨[], bs₁, bs₂, bs₃, [], nofun, hbs₁, hbs₂, hbs₃, nofun, ?_⟩,
      hrest⟩
    rcases List.exists_cons_of_length_eq_add_one hfield.1 with ⟨c, cs, rfl⟩
    have hc : isBlank c = false := by
      rcases hfield.2 c (by simp) with rfl | rfl <;> rfl
    have hends : c :: (cs ++ bs₁ ++ ':' :: (bs₂ ++ data ++ bs₃ ++ [';'])) =
        (c :: cs ++ bs₁ ++ ':' :: (bs₂ ++ data ++ bs₃)) ++ [';'] := by
      simp
    have htrim := trim_eq bs bs₄ hbs hbs₄ hc rfl hends
    have hsame : line = bs ++ (c :: (cs ++ bs₁ ++ ':' :: (bs₂ ++ data ++ bs₃ ++ [';']))) ++ bs₄ := by
      rw [heq]
      simp
    rw [hsame, htrim]
    simp

/-- The reader takes a line for a record exactly if it is one. -/
theorem readRecord_trim_iff {line : List Char} {address : Int} {cell : Cell} :
    readRecord (trim line) = .ok (address, cell) ↔ IsRecord line address cell :=
  ⟨fun h => isRecord_trim.mp (isRecord_of_readRecord h),
    fun h => readRecord_of_isRecord (isRecord_trim.mpr h)⟩

/-! ## Declarations -/

theorem isBlank_of_isKeyChar {c : Char} (h : isKeyChar c = true) : isBlank c = false := by
  simp only [isKeyChar, Bool.or_eq_true, Bool.and_eq_true, decide_eq_true_eq, beq_iff_eq] at h
  rcases h with ⟨hle, hle'⟩ | rfl
  · have hmin : 65 ≤ c.toNat := hle
    have hmax : c.toNat ≤ 90 := hle'
    exact isBlank_of_graphic (by omega) (by omega)
  · rfl

theorem isBlank_of_isValueChar {c : Char} (h : isValueChar c = true) : isBlank c = false := by
  simp only [isValueChar, Bool.or_eq_true, Bool.and_eq_true, decide_eq_true_eq] at h
  have hmem : 48 ≤ c.toNat ∧ c.toNat ≤ 122 := by
    rcases h with (⟨hle, hle'⟩ | ⟨hle, hle'⟩) | ⟨hle, hle'⟩
    · have hmin : 65 ≤ c.toNat := hle
      have hmax : c.toNat ≤ 90 := hle'
      omega
    · have hmin : 97 ≤ c.toNat := hle
      have hmax : c.toNat ≤ 122 := hle'
      omega
    · have hmin : 48 ≤ c.toNat := hle
      have hmax : c.toNat ≤ 57 := hle'
      omega
  exact isBlank_of_graphic (by omega) (by omega)

/-- The parts of a declaration are found again. -/
theorem declaration?_of_declares {line key value : List Char} (h : Declares line key value) :
    declaration? (trim line) = some (String.ofList key, String.ofList value) := by
  rcases h with ⟨⟨hkey, hkeys⟩, ⟨hvalue, hvalues⟩, bs, bs', bs'', hbs, hbs', hbs'', hline⟩
  have hkeyPart := takeWhile_append_dropWhile_eq hkeys
    (hbs.head?_append_cons (fun _ => isBlank_of_isKeyChar) (d := '=') rfl
      (bs' ++ value ++ bs'' ++ [';']))
  have hvaluePart := takeWhile_append_dropWhile_eq hvalues
    (hbs''.head?_append_cons (fun _ => isBlank_of_isValueChar) (d := ';') rfl [])
  have hequals : trimStart (bs ++ '=' :: (bs' ++ value ++ bs'' ++ [';'])) =
      '=' :: (bs' ++ value ++ bs'' ++ [';']) := hbs.trimStart_append_cons rfl _
  have hbeginning : trimStart (bs' ++ value ++ bs'' ++ [';']) = value ++ (bs'' ++ [';']) := by
    rcases List.exists_cons_of_ne_nil hvalue with ⟨c, cs, rfl⟩
    have hc := isBlank_of_isValueChar (hvalues c (by simp))
    simpa using hbs'.trimStart_append_cons hc (cs ++ (bs'' ++ [';']))
  have hend : trimStart (bs'' ++ [';']) = [';'] := hbs''.trimStart_append_cons rfl []
  unfold declaration?
  rw [hline, List.append_assoc, hkeyPart.1, hkeyPart.2, hequals]
  simp only [hbeginning, hvaluePart.1, hvaluePart.2, hend]
  simp [hkey, hvalue]

theorem declares_of_declaration? {line key value : List Char}
    (h : declaration? (trim line) = some (String.ofList key, String.ofList value)) :
    Declares line key value := by
  unfold declaration? at h
  dsimp only at h
  split at h
  swap
  · cases h
  next rest hrest =>
  split_ifs at h with hbad
  simp only [not_or, ne_eq, not_not] at hbad
  simp only [Option.some.injEq, Prod.mk.injEq, String.ofList_inj] at h
  obtain ⟨rfl, rfl⟩ := h
  rcases exists_trimStart ((trim line).dropWhile isKeyChar) with ⟨bs, hbs, hkeyEnd⟩
  rcases exists_trimStart rest with ⟨bs', hbs', hequalsEnd⟩
  rcases exists_trimStart ((trimStart rest).dropWhile isValueChar) with ⟨bs'', hbs'', hvalueEnd⟩
  refine ⟨⟨hbad.1, fun c hc => List.mem_takeWhile_imp hc⟩,
    ⟨hbad.2.1, fun c hc => List.mem_takeWhile_imp hc⟩, bs, bs', bs'', hbs, hbs', hbs'', ?_⟩
  rw [hbad.2.2] at hvalueEnd
  have hvalueLine : rest = bs' ++ ((trimStart rest).takeWhile isValueChar ++ (bs'' ++ [';'])) := by
    rw [← hvalueEnd, List.takeWhile_append_dropWhile, ← hequalsEnd]
  have hkeyLine : trim line = (trim line).takeWhile isKeyChar ++ (bs ++ '=' :: rest) := by
    rw [← hrest, ← hkeyEnd, List.takeWhile_append_dropWhile]
  conv => lhs; rw [hkeyLine, hvalueLine]
  simp

/-- What the line declares about the shape of the image is right. -/
def Agrees (line : List Char) : Prop :=
  ∀ key value, Declares line key value →
    ∀ expected, (String.ofList key, expected) ∈ declarations → String.ofList value = expected

theorem declarations_unique : ∀ d ∈ declarations, ∀ d' ∈ declarations, d.1 = d'.1 → d = d' := by
  decide +kernel

/-- The reader finds no defect in a line of the header exactly if it declares nothing wrong. -/
theorem headerDefect?_eq_none_iff {line : List Char} :
    headerDefect? (trim line) = none ↔ Agrees line := by
  unfold headerDefect?
  cases hdeclaration : declaration? (trim line) with
  | none =>
    refine iff_of_true rfl fun key value h => ?_
    rw [declaration?_of_declares h] at hdeclaration
    cases hdeclaration
  | some d =>
    rcases d with ⟨key, found⟩
    have hdeclares : Declares line key.toList found.toList :=
      declares_of_declaration? (by simp [hdeclaration])
    have hunique : ∀ {key' value'}, Declares line key' value' →
        String.ofList key' = key ∧ String.ofList value' = found := by
      intro key' value' h
      rw [declaration?_of_declares h] at hdeclaration
      exact Prod.mk.inj (Option.some.inj hdeclaration)
    cases hfind : declarations.find? (·.1 = key) with
    | none =>
      refine iff_of_true (by simp [hfind]) fun key' value' h expected hmem => ?_
      have hnone := List.find?_eq_none.mp hfind _ hmem
      simp [(hunique h).1] at hnone
    | some d =>
      rcases d with ⟨key', expected⟩
      have hkey : key' = key := by simpa using List.find?_some hfind
      have hmem := List.mem_of_find?_eq_some hfind
      subst hkey
      -- the key is declared once, so the value that was found is the one to compare with
      simp only [Option.bind_eq_bind, Option.bind_some, hfind, ite_eq_left_iff, reduceCtorEq,
        imp_false, not_not]
      constructor
      · intro hsame key value h expected' hmem'
        rw [(hunique h).1] at hmem'
        have heq := declarations_unique _ hmem _ hmem' rfl
        rw [(hunique h).2, hsame, (Prod.mk.inj heq).2]
      · intro h
        simpa using h _ _ hdeclares expected (by simpa using hmem)

/-! ## The whole text -/

/-- Lines that may stand before the line that begins the records. -/
def IsHeader (lines : List (List Char)) : Prop :=
  ∀ l ∈ lines, trim l ≠ beginLine.toList ∧ Agrees l

/-- Lines that may stand between the line that begins the records and the first one that ends them:
each is blank or a record, and no two of them are records of one address. -/
structure AreRecords (lines : List (List Char)) : Prop where
  good : ∀ l ∈ lines, trim l ≠ endLine.toList ∧ (Blank l ∨ ∃ a c, IsRecord l a c)
  distinct : lines.Pairwise fun l l' => ∀ a c c', IsRecord l a c → ¬IsRecord l' a c'

/-- One of the lines is a record of this address and this cell. -/
def Lists (lines : List (List Char)) (a : Int) (c : Cell) : Prop := ∃ l ∈ lines, IsRecord l a c

/-- The lines are a header, the line that begins the records, and records. -/
def Opens (lines records : List (List Char)) : Prop :=
  ∃ header b, lines = header ++ b :: records ∧ IsHeader header ∧ trim b = beginLine.toList ∧
    AreRecords records

/-- The lines are the beginning of an image, up to some line before the one that ends the records. -/
def IsUnfinished (lines : List (List Char)) : Prop :=
  IsHeader lines ∨ ∃ records, Opens lines records

/-- The line that an unfinished image lacks. -/
def Misses (lines : List (List Char)) (defect : Defect) : Prop :=
  (defect = .missingBegin ∧ IsHeader lines) ∨
    (defect = .missingEnd ∧ ∃ records, Opens lines records)

/-- The lines are an image with these lines for its records. Nothing is said of the lines after the
one that ends the records. -/
def HasRecords (lines records : List (List Char)) : Prop :=
  ∃ opening e rest, lines = opening ++ e :: rest ∧ Opens opening records ∧ trim e = endLine.toList

/-- The program store has the cells that the lines list, and no others. -/
def Holds (p : Program) (lines : List (List Char)) : Prop := ∀ a c, p[a]? = some c ↔ Lists lines a c

/-- The lines are an image of the program store. -/
def IsImage (lines : List (List Char)) (p : Program) : Prop :=
  ∃ records, HasRecords lines records ∧ Holds p records

/-- The line is the first one with which the lines so far neither are an image nor begin one. -/
def IsSpoiledAt (lines : List (List Char)) (n : Nat) : Prop :=
  ∃ before line rest, lines = before ++ line :: rest ∧ n = before.length + 1 ∧
    IsUnfinished before ∧ ¬IsUnfinished (before ++ [line]) ∧ ¬∃ p, IsImage (before ++ [line]) p

/-! ### Records -/

theorem not_isRecord_of_blank {line : List Char} (h : Blank line) (a : Int) (c : Cell) :
    ¬IsRecord line a c := by
  intro hrecord
  have hread := readRecord_trim_iff.mpr hrecord
  rw [trim_eq_nil_iff.mpr h] at hread
  cases hread

/-- A line is a record of one address and one cell only. -/
theorem IsRecord.unique {line : List Char} {a a' : Int} {c c' : Cell} (h : IsRecord line a c)
    (h' : IsRecord line a' c') : a = a' ∧ c = c' := by
  have hread := readRecord_trim_iff.mpr h
  rw [readRecord_trim_iff.mpr h'] at hread
  exact (Prod.mk.inj (Except.ok.inj hread)).imp Eq.symm Eq.symm

theorem lists_concat {lines : List (List Char)} {line : List Char} {a : Int} {c : Cell} :
    Lists (lines ++ [line]) a c ↔ Lists lines a c ∨ IsRecord line a c := by
  simp [Lists, or_and_right, exists_or]

theorem areRecords_nil : AreRecords [] := ⟨nofun, List.Pairwise.nil⟩

/-- What a further line has to be. -/
theorem areRecords_concat {lines : List (List Char)} {line : List Char} :
    AreRecords (lines ++ [line]) ↔ AreRecords lines ∧ trim line ≠ endLine.toList ∧
      (Blank line ∨ ∃ a c, IsRecord line a c ∧ ∀ c', ¬Lists lines a c') := by
  constructor
  · intro h
    rcases List.pairwise_append.mp h.distinct with ⟨hdistinct, -, hapart⟩
    rcases h.good line (by simp) with ⟨hend, hline⟩
    refine ⟨⟨fun l hl => h.good l (by simp [hl]), hdistinct⟩, hend, hline.imp_right ?_⟩
    rintro ⟨a, c, hrecord⟩
    refine ⟨a, c, hrecord, ?_⟩
    rintro c' ⟨l, hl, hrecord'⟩
    exact hapart l hl line (by simp) a c' c hrecord' hrecord
  · rintro ⟨h, hend, hline⟩
    constructor
    · intro l hl
      rcases List.mem_append.mp hl with hl | hl
      · exact h.good l hl
      · rw [List.mem_singleton.mp hl]
        exact ⟨hend, hline.imp_right fun ⟨a, c, hrecord, _⟩ => ⟨a, c, hrecord⟩⟩
    · refine List.pairwise_append.mpr ⟨h.distinct, List.pairwise_singleton _ _, ?_⟩
      intro l hl l' hl' a c c' hrecord hrecord'
      rw [List.mem_singleton.mp hl'] at hrecord'
      rcases hline with hblank | ⟨b, d, hb, hfresh⟩
      · exact not_isRecord_of_blank hblank _ _ hrecord'
      · rw [(hrecord'.unique hb).1] at hrecord
        exact hfresh c ⟨l, hl, hrecord⟩

theorem Holds.empty : Holds ∅ [] := by
  intro a c
  simp [Lists]

theorem Holds.unique {p q : Program} {lines : List (List Char)} (hp : Holds p lines)
    (hq : Holds q lines) : p = q := by
  refine AddressMap.ext_get? fun a => Option.ext fun c => ?_
  rw [hp a c, hq a c]

/-- A blank line adds nothing. -/
theorem Holds.concat_blank {p : Program} {lines : List (List Char)} {line : List Char}
    (hp : Holds p lines) (h : Blank line) : Holds p (lines ++ [line]) := by
  intro a c
  rw [lists_concat, hp a c]
  simp [not_isRecord_of_blank h]

/-- A record of another address than those before adds its cell. -/
theorem Holds.insert {p : Program} {lines : List (List Char)} {line : List Char} {a : Int} {c : Cell}
    (hp : Holds p lines) (h : IsRecord line a c) (hfresh : ∀ c', ¬Lists lines a c') :
    Holds (p.insert a c) (lines ++ [line]) := by
  intro b d
  rw [lists_concat, AddressMap.get?_insert]
  split
  · next hb =>
    subst hb
    simp only [Option.some.injEq, hfresh, false_or]
    exact ⟨fun hd => hd ▸ h, fun hd => (h.unique hd).2⟩
  · next hb =>
    rw [hp b d]
    exact ⟨Or.inl, fun hd => hd.resolve_right fun hrecord => hb (h.unique hrecord).1⟩

/-- The address of a line before is taken. -/
theorem Holds.contains_iff {p : Program} {lines : List (List Char)} (hp : Holds p lines) {a : Int} :
    p.contains a = true ↔ ∃ c, Lists lines a c := by
  rw [← Std.ExtTreeMap.isSome_getElem?_eq_contains, Option.isSome_iff_exists]
  exact exists_congr fun c => hp a c

/-- The reader goes on after a line with which the lines so far are records. -/
theorem readRecords_good {done : List (List Char)} {line : List Char}
    (h : AreRecords (done ++ [line])) {p : Program} (hp : Holds p done) :
    ∃ q, Holds q (done ++ [line]) ∧
      ∀ n rest, readRecords n p (line :: rest) = readRecords (n + 1) q rest := by
  rcases areRecords_concat.mp h with ⟨-, hend, hline⟩
  by_cases hblank : trim line = []
  · refine ⟨p, hp.concat_blank (trim_eq_nil_iff.mp hblank), fun n rest => ?_⟩
    simp [readRecords, hblank, endLine]
  · rcases hline with hline | ⟨a, c, hrecord, hfresh⟩
    · exact absurd (trim_eq_nil_iff.mpr hline) hblank
    · refine ⟨p.insert a c, hp.insert hrecord hfresh, fun n rest => ?_⟩
      have hcontains : p.contains a = false := by
        rw [← Bool.not_eq_true, hp.contains_iff]
        exact not_exists.mpr hfresh
      simp [readRecords, hend, hblank, readRecord_trim_iff.mpr hrecord, hcontains]

/-- The reader stops at a line with which the lines so far are no records. -/
theorem readRecords_bad {done : List (List Char)} {line : List Char} (hdone : AreRecords done)
    (hend : trim line ≠ endLine.toList) (h : ¬AreRecords (done ++ [line])) {p : Program}
    (hp : Holds p done) (n : Nat) (rest : List (List Char)) :
    ∃ defect, readRecords n p (line :: rest) = .error ⟨n, defect⟩ := by
  have hbad := fun hline => h (areRecords_concat.mpr ⟨hdone, hend, hline⟩)
  simp only [not_or, imp_false] at hbad
  have hblank : trim line ≠ [] := fun hnil => hbad.1 (trim_eq_nil_iff.mp hnil)
  unfold readRecords
  simp only [hend, hblank, if_false]
  cases hread : readRecord (trim line) with
  | error defect => exact ⟨defect, rfl⟩
  | ok entry =>
    rcases entry with ⟨a, c⟩
    have hcontains : p.contains a = true := by
      rw [hp.contains_iff]
      by_contra hfresh
      exact hbad.2 ⟨a, c, readRecord_trim_iff.mp hread, not_exists.mp hfresh⟩
    exact ⟨.duplicate a, by simp [hcontains]⟩

/-- The reader goes on after records. The induction is on the lines already read. -/
theorem readRecords_areRecords {records : List (List Char)} (h : AreRecords records) :
    ∃ q, Holds q records ∧ ∀ n rest,
      readRecords n ∅ (records ++ rest) = readRecords (n + records.length) q rest := by
  induction records using List.reverseRecOn with
  | nil => exact ⟨∅, Holds.empty, fun _ _ => rfl⟩
  | append_singleton records line ih =>
    rcases ih (areRecords_concat.mp h).1 with ⟨p, hp, hread⟩
    rcases readRecords_good h hp with ⟨q, hq, hstep⟩
    refine ⟨q, hq, fun n rest => ?_⟩
    rw [List.append_assoc, hread, List.singleton_append, hstep, List.length_append, Nat.add_assoc]
    rfl

/-! ### Header -/

/-- The reader passes over a header. -/
theorem readHeader_isHeader {lines : List (List Char)} (h : IsHeader lines) (n : Nat)
    (rest : List (List Char)) :
    readHeader n (lines ++ rest) = readHeader (n + lines.length) rest := by
  induction lines generalizing n with
  | nil => rfl
  | cons line lines ih =>
    rcases List.forall_mem_cons.mp h with ⟨⟨hbegin, hagrees⟩, hlines⟩
    rw [List.cons_append, readHeader]
    simp only [hbegin, if_false, headerDefect?_eq_none_iff.mpr hagrees]
    rw [ih hlines, List.length_cons, Nat.add_assoc, Nat.add_comm 1]

/-- The reader stops at a line that declares something wrong. -/
theorem readHeader_bad {line : List Char} (hbegin : trim line ≠ beginLine.toList)
    (h : ¬Agrees line) (n : Nat) (rest : List (List Char)) :
    ∃ defect, readHeader n (line :: rest) = .error ⟨n, defect⟩ := by
  unfold readHeader
  simp only [hbegin, if_false]
  cases hdefect : headerDefect? (trim line) with
  | none => exact absurd (headerDefect?_eq_none_iff.mp hdefect) h
  | some defect => exact ⟨defect, rfl⟩

/-- The reader goes on after a header and records. -/
theorem readHeader_opens {lines records : List (List Char)} (h : Opens lines records) :
    ∃ q, Holds q records ∧ ∀ n rest,
      readHeader n (lines ++ rest) = readRecords (n + lines.length) q rest := by
  rcases h with ⟨header, b, rfl, hheader, hbegin, hrecords⟩
  rcases readRecords_areRecords hrecords with ⟨q, hq, hread⟩
  refine ⟨q, hq, fun n rest => ?_⟩
  rw [List.append_assoc, readHeader_isHeader hheader, List.cons_append, readHeader]
  simp only [hbegin, if_true, hread]
  rw [List.length_append, List.length_cons]
  congr 1
  omega

/-! ### Images -/

/-- An image is read. -/
theorem readHeader_hasRecords {lines records : List (List Char)} (h : HasRecords lines records)
    (n : Nat) : ∃ q, Holds q records ∧ readHeader n lines = .ok q := by
  rcases h with ⟨opening, e, rest, rfl, hopens, hend⟩
  rcases readHeader_opens hopens with ⟨q, hq, hread⟩
  refine ⟨q, hq, ?_⟩
  rw [hread, readRecords]
  simp [hend]

theorem readHeader_isImage {lines : List (List Char)} {p : Program} (h : IsImage lines p) (n : Nat) :
    readHeader n lines = .ok p := by
  rcases h with ⟨records, hrecords, hp⟩
  rcases readHeader_hasRecords hrecords n with ⟨q, hq, hread⟩
  rw [hread, hp.unique hq]

/-- The reader finds nothing wrong with the lines of an unfinished image, but that they end. -/
theorem readHeader_misses {lines : List (List Char)} {defect : Defect} (h : Misses lines defect)
    (n : Nat) : readHeader n lines = .error ⟨0, defect⟩ := by
  rcases h with ⟨rfl, h⟩ | ⟨rfl, records, h⟩
  · have hread := readHeader_isHeader h n []
    rwa [List.append_nil] at hread
  · rcases readHeader_opens h with ⟨q, -, hread⟩
    have hread := hread n []
    rwa [List.append_nil] at hread

/-- The reader points at the line that spoils the image. -/
theorem readHeader_isSpoiledAt {lines : List (List Char)} {n : Nat} (h : IsSpoiledAt lines n) :
    ∃ defect, readHeader 1 lines = .error ⟨n, defect⟩ := by
  rcases h with ⟨before, line, rest, rfl, rfl, hbefore, hunfinished, himage⟩
  rw [Nat.add_comm]
  rcases hbefore with hheader | ⟨records, hopens⟩
  · -- neither the line that begins the records nor one that declares nothing wrong spoils a header
    have hbegin : trim line ≠ beginLine.toList := fun hbegin =>
      hunfinished (Or.inr ⟨[], before, line, rfl, hheader, hbegin, areRecords_nil⟩)
    rw [readHeader_isHeader hheader]
    refine readHeader_bad hbegin (fun hagrees => hunfinished (Or.inl fun l hl => ?_)) _ _
    rcases List.mem_append.mp hl with hl | hl
    · exact hheader l hl
    · rw [List.mem_singleton.mp hl]
      exact ⟨hbegin, hagrees⟩
  · rcases readHeader_opens hopens with ⟨q, hq, hread⟩
    rw [hread]
    refine readRecords_bad hopens.choose_spec.choose_spec.2.2.2 ?_ ?_ hq _ _
    · intro hend
      exact himage ⟨q, records, ⟨before, line, [], rfl, hopens, hend⟩, hq⟩
    · intro hrecords
      rcases hopens with ⟨header, b, rfl, hheader, hbegin, -⟩
      exact hunfinished (Or.inr ⟨records ++ [line], header, b, by simp, hheader, hbegin, hrecords⟩)

/-- A row is good as a whole, or there is a first element that spoils it. -/
theorem good_or_spoiled {α : Type} {good : List α → Prop} (hnil : good []) (xs : List α) :
    good xs ∨ ∃ before x rest, xs = before ++ x :: rest ∧ good before ∧ ¬good (before ++ [x]) := by
  induction xs using List.reverseRecOn with
  | nil => exact Or.inl hnil
  | append_singleton xs x ih =>
    rcases ih with hgood | ⟨before, y, rest, rfl, hgood, hspoiled⟩
    · by_cases hnext : good (xs ++ [x])
      · exact Or.inl hnext
      · exact Or.inr ⟨xs, x, [], rfl, hgood, hnext⟩
    · exact Or.inr ⟨before, y, rest ++ [x], by simp, hgood, hspoiled⟩

theorem IsImage.append {lines : List (List Char)} {p : Program} (h : IsImage lines p)
    (rest : List (List Char)) : IsImage (lines ++ rest) p := by
  rcases h with ⟨records, ⟨opening, e, after, rfl, hopens, hend⟩, hp⟩
  exact ⟨records, ⟨opening, e, after ++ rest, by simp, hopens, hend⟩, hp⟩

/-- Lines are an image, begin one, or are spoiled at some line. -/
theorem isImage_or_isUnfinished_or_isSpoiledAt (lines : List (List Char)) :
    (∃ p, IsImage lines p) ∨ IsUnfinished lines ∨ ∃ n, IsSpoiledAt lines n := by
  have hnil : IsUnfinished [] := Or.inl nofun
  rcases good_or_spoiled hnil lines with h | ⟨before, line, rest, rfl, hbefore, hline⟩
  · exact Or.inr (Or.inl h)
  · by_cases himage : ∃ p, IsImage (before ++ [line]) p
    · rcases himage with ⟨p, himage⟩
      have hwhole := himage.append rest
      rw [List.append_assoc] at hwhole
      exact Or.inl ⟨p, hwhole⟩
    · exact Or.inr (Or.inr ⟨_, before, line, rest, rfl, rfl, hbefore, hline, himage⟩)

/-- What the reader makes of any lines. -/
theorem readHeader_cases (lines : List (List Char)) :
    (∃ p, readHeader 1 lines = .ok p ∧ IsImage lines p) ∨
    (∃ defect, readHeader 1 lines = .error ⟨0, defect⟩ ∧ Misses lines defect) ∨
    ∃ n defect, readHeader 1 lines = .error ⟨n + 1, defect⟩ ∧ IsSpoiledAt lines (n + 1) := by
  rcases isImage_or_isUnfinished_or_isSpoiledAt lines with ⟨p, h⟩ | (h | h) | ⟨n, h⟩
  · exact Or.inl ⟨p, readHeader_isImage h 1, h⟩
  · have hmisses : Misses lines .missingBegin := Or.inl ⟨rfl, h⟩
    exact Or.inr (Or.inl ⟨_, readHeader_misses hmisses 1, hmisses⟩)
  · have hmisses : Misses lines .missingEnd := Or.inr ⟨rfl, h⟩
    exact Or.inr (Or.inl ⟨_, readHeader_misses hmisses 1, hmisses⟩)
  · rcases readHeader_isSpoiledAt h with ⟨defect, hread⟩
    have hspoiled := h
    rcases h with ⟨before, line, rest, -, rfl, -⟩
    exact Or.inr (Or.inr ⟨_, defect, hread, hspoiled⟩)

/-- A text is read as a program store exactly if its lines are an image of that store, and any two
images whose records list the same cells are read alike. In any other text the reader misses the line
that begins the records, if there is only a header, or the line that ends them, if only this is left
out; or else it points at the first line with which the lines so far neither are nor begin an image. -/
theorem read_iff_isImage (text : String) :
    (∀ p, read text = .ok p ↔ IsImage (lines text.toList) p) ∧
    (∀ text' records records', HasRecords (lines text.toList) records →
      HasRecords (lines text'.toList) records' →
      (∀ a c, Lists records a c ↔ Lists records' a c) → read text' = read text) ∧
    (∀ defect, read text = .error ⟨0, defect⟩ ↔ Misses (lines text.toList) defect) ∧
    ∀ n, (∃ defect, read text = .error ⟨n + 1, defect⟩) ↔
      IsSpoiledAt (lines text.toList) (n + 1) := by
  have hcases := readHeader_cases (lines text.toList)
  unfold read
  refine ⟨fun p => ⟨fun hread => ?_, fun h => readHeader_isImage h 1⟩, ?_,
    fun defect => ⟨fun hread => ?_, fun h => readHeader_misses h 1⟩,
    fun n => ⟨?_, readHeader_isSpoiledAt⟩⟩
  · simp only [hread] at hcases
    rcases hcases with ⟨q, hq, himage⟩ | ⟨_, hq, _⟩ | ⟨_, _, hq, _⟩ <;> cases hq
    exact himage
  · intro text' records records' h h' hsame
    rcases readHeader_hasRecords h 1 with ⟨p, hp, hread⟩
    rw [hread]
    refine readHeader_isImage ⟨records', h', fun a c => ?_⟩ 1
    rw [hp a c, hsame a c]
  · simp only [hread] at hcases
    rcases hcases with ⟨q, hq, _⟩ | ⟨_, hq, hmisses⟩ | ⟨_, _, hq, _⟩ <;> cases hq
    exact hmisses
  · rintro ⟨defect, hread⟩
    simp only [hread] at hcases
    rcases hcases with ⟨q, hq, _⟩ | ⟨_, hq, _⟩ | ⟨_, _, hq, hspoiled⟩ <;> cases hq
    exact hspoiled

end Image

end Subleq
