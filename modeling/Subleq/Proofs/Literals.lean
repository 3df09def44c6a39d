import Mathlib
import Subleq.Address
import Subleq.Proofs.Lines
import Subleq.Proofs.Outcomes
import Subleq.Proofs.RoundTrip

/-!
# Subleq.Proofs.Literals — what an operand comes to

A row of digits of any length writes a number (`Text.Writes`). Cutting a row off before its last
digits gives the number modulo a power of the base (`Literal.ofDigits_lastDigits_eq_mod`), which is
why a binary and a hexadecimal literal come to the number they write modulo 256. A decimal one
saturates (`SymbolTable.ReadsByForm`).

Operands of a statement and addresses typed by the user are read in two different ways.
`SymbolTable.readsByForm_agrees` says for every token what it comes to as an operand, and how far
the two readings agree.
-/

namespace Subleq

namespace Text

/-! ## Rows of digits -/

section Digits

variable {digit? : Char → Option Nat} {base n : Nat} {cs : List Char} {ds : List Nat}

/-- The text is a row of digits, of which there is one at least, and writes the number. -/
def Writes (digit? : Char → Option Nat) (base : Nat) (cs : List Char) (n : Nat) : Prop :=
  cs ≠ [] ∧ ∃ ds, List.Forall₂ (fun c d => digit? c = some d) cs ds ∧
    n = Nat.ofDigits base ds.reverse

/-- The digits count from the last one on. -/
theorem ofDigits_eq (base : Nat) (ds : List Nat) :
    ofDigits base ds = Nat.ofDigits base ds.reverse := by
  induction ds using List.reverseRecOn with
  | nil => rfl
  | append_singleton ds d ih =>
    rw [ofDigits_concat, ih, List.reverse_concat, Nat.ofDigits_cons]
    ring

theorem mapM_eq_some_iff_forall₂ :
    cs.mapM digit? = some ds ↔ List.Forall₂ (fun c d => digit? c = some d) cs ds := by
  induction cs generalizing ds with
  | nil => simp [eq_comm]
  | cons c cs ih =>
    rw [List.mapM_cons, List.forall₂_cons_left_iff]
    simp only [Option.bind_eq_bind, Option.bind_eq_some_iff, Option.pure_def, Option.some.injEq]
    constructor
    · rintro ⟨d, hd, ds', hds', rfl⟩
      exact ⟨d, ds', hd, ih.mp hds', rfl⟩
    · rintro ⟨d, ds', hd, hds', rfl⟩
      exact ⟨d, hd, ds', ih.mpr hds', rfl⟩

/-- A text writes a number exactly if its digits can be read, and it is the number of the digits. -/
theorem writes_iff : Writes digit? base cs n ↔
    ∃ ds, cs.mapM digit? = some ds ∧ ds ≠ [] ∧ n = ofDigits base ds := by
  simp only [Writes, ofDigits_eq, mapM_eq_some_iff_forall₂]
  constructor
  · rintro ⟨hcs, ds, hds, rfl⟩
    have hne : ds ≠ [] := fun hnil => hcs (by simpa [hnil] using hds)
    exact ⟨ds, hds, hne, rfl⟩
  · rintro ⟨ds, hds, hne, rfl⟩
    have hcs : cs ≠ [] := fun hnil => hne (by simpa [hnil] using hds)
    exact ⟨hcs, ds, hds, rfl⟩

/-- A row of digits begins with one. -/
theorem not_writes_cons {c : Char} (h : digit? c = none) : ¬Writes digit? base (c :: cs) n := by
  rintro ⟨-, ds, hds, -⟩
  obtain ⟨d, _, hd, -⟩ := List.forall₂_cons_left_iff.mp hds
  rw [h] at hd
  cases hd

end Digits

/-! ## Decimal numerals -/

section Decimals

variable {cs : List Char} {v : Int} {numeral : Decimal}

/-- The text is a decimal numeral, whatever the scripts of its digits, and writes the number. -/
inductive WritesDecimal : List Char → Int → Prop where
  | plain {cs : List Char} {n : Nat} (h : Writes digitValue? 10 cs n) : WritesDecimal cs n
  | minus {cs : List Char} {n : Nat} (h : Writes digitValue? 10 cs n) :
      WritesDecimal ('-' :: cs) (-n)

instance decidableIsWord (cs : List Char) : Decidable (IsWord cs) :=
  decidable_of_iff (cs ≠ [] ∧ cs.all (!isBlank ·) = true) (by simp [IsWord])

/-- Nothing is dropped from a text that does not end with a line feed. -/
theorem dropFinalNewline_eq (h : cs.getLast? ≠ some '\n') : dropFinalNewline cs = cs := by
  induction cs with
  | nil => rfl
  | cons c cs ih =>
    have hlast : ¬(c = '\n' ∧ cs = []) := by
      rintro ⟨rfl, rfl⟩
      exact h rfl
    rw [dropFinalNewline, if_neg hlast]
    cases cs with
    | nil => rfl
    | cons d ds => rw [ih (by simpa using h)]

/-- There is no line feed in a word. -/
theorem IsWord.dropFinalNewline_eq (h : IsWord cs) : dropFinalNewline cs = cs := by
  apply Text.dropFinalNewline_eq
  intro hlast
  have hblank := h.2 '\n' (List.mem_of_getLast? hlast)
  cases hblank

theorem bind_ofDigits?_eq_some_iff {negative : Bool} :
    (digitValues? cs).bind (Decimal.ofDigits? negative) = some numeral ↔
      ∃ ds, cs.mapM digitValue? = some ds ∧ ds ≠ [] ∧ numeral = ⟨negative, ds⟩ := by
  rw [Option.bind_eq_some_iff]
  refine exists_congr fun ds => and_congr_right fun _ => ?_
  cases ds with
  | nil => simp [Decimal.ofDigits?]
  | cons d ds => simp [Decimal.ofDigits?, eq_comm]

/-- Of texts that no line feed is dropped from, the numerals are those that write a number, and they
write it. -/
theorem writesDecimal_iff (h : dropFinalNewline cs = cs) :
    WritesDecimal cs v ↔ ∃ numeral, Decimal.parse? cs = some numeral ∧ numeral.number = v := by
  unfold Decimal.parse?
  rw [h]
  -- a minus is no digit, so that a text is read in one way only
  split
  · next rest =>
    simp only [bind_ofDigits?_eq_some_iff]
    constructor
    · intro hwrites
      cases hwrites with
      | plain hplain => exact absurd hplain (not_writes_cons (by decide))
      | minus hminus =>
        obtain ⟨ds, hds, hne, rfl⟩ := writes_iff.mp hminus
        exact ⟨⟨true, ds⟩, ⟨ds, hds, hne, rfl⟩, rfl⟩
    · rintro ⟨_, ⟨ds, hds, hne, rfl⟩, rfl⟩
      exact .minus (writes_iff.mpr ⟨ds, hds, hne, rfl⟩)
  · next hminus =>
    simp only [bind_ofDigits?_eq_some_iff]
    constructor
    · intro hwrites
      cases hwrites with
      | plain hplain =>
        obtain ⟨ds, hds, hne, rfl⟩ := writes_iff.mp hplain
        exact ⟨⟨false, ds⟩, ⟨ds, hds, hne, rfl⟩, rfl⟩
      | minus => exact absurd rfl (hminus _)
    · rintro ⟨_, ⟨ds, hds, hne, rfl⟩, rfl⟩
      exact .plain (writes_iff.mpr ⟨ds, hds, hne, rfl⟩)

theorem IsWord.writesDecimal_iff (h : IsWord cs) :
    WritesDecimal cs v ↔ ∃ numeral, Decimal.parse? cs = some numeral ∧ numeral.number = v :=
  Text.writesDecimal_iff h.dropFinalNewline_eq

/-- A text that begins with neither a minus nor a digit is no numeral. -/
theorem parse?_cons_eq_none {c : Char} (hminus : c ≠ '-') (hnewline : c ≠ '\n')
    (hdigit : digitValue? c = none) : Decimal.parse? (c :: cs) = none := by
  unfold Decimal.parse?
  rw [dropFinalNewline, if_neg fun h => hnewline h.1]
  split
  · next heq => exact absurd (List.cons.inj heq).1 hminus
  · rw [Option.eq_none_iff_forall_ne_some]
    intro numeral hnumeral
    obtain ⟨ds, hds, hne, -⟩ := bind_ofDigits?_eq_some_iff.mp hnumeral
    have hwrites : Writes digitValue? 10 (c :: dropFinalNewline cs) (ofDigits 10 ds) :=
      writes_iff.mpr ⟨ds, hds, hne, rfl⟩
    exact not_writes_cons hdigit hwrites

/-- Nothing is trimmed from a word. -/
theorem IsWord.trim_eq (h : IsWord cs) : trim cs = cs := by
  rcases h with ⟨hne, hblanks⟩
  rcases List.eq_nil_or_concat cs with rfl | ⟨ds, d, hlast⟩
  · exact absurd rfl hne
  · obtain ⟨c, rest, rfl⟩ := List.exists_cons_of_ne_nil hne
    have htrim := Text.trim_eq [] [] nofun nofun (hblanks c (by simp))
      (hblanks d (by rw [hlast]; simp)) (by rw [hlast, List.concat_eq_append])
    simpa using htrim

end Decimals

end Text

/-! ## Literal forms -/

namespace Literal

open Text

section Forms

variable {token : String} {cs : List Char} {n : Nat}

/-- What begins with the mark of binary digits is binary, though decimal numerals are looked for
first. -/
theorem ofToken?_binary (h : token.toList = binaryMark :: cs) :
    ofToken? token = some (.binary (String.ofList cs)) := by
  have hnone : Decimal.parse? (binaryMark :: cs) = none :=
    parse?_cons_eq_none (by decide) (by decide) (by decide)
  simp [ofToken?, h, hnone]

theorem ofToken?_hex (h : token.toList = hexMark :: cs) :
    ofToken? token = some (.hex (String.ofList cs)) := by
  have hnone : Decimal.parse? (hexMark :: cs) = none :=
    parse?_cons_eq_none (by decide) (by decide) (by decide)
  have hmarks : hexMark ≠ binaryMark := by decide
  simp [ofToken?, h, hnone, hmarks]

/-- A token is a name if it is no numeral and does not begin with a mark. -/
theorem ofToken?_name (hnone : Decimal.parse? token.toList = none)
    (hhead : ∀ c ∈ token.toList.head?, c ≠ binaryMark ∧ c ≠ hexMark) : ofToken? token = none := by
  cases hcs : token.toList with
  | nil => simp [ofToken?, hcs, Decimal.parse?, dropFinalNewline, digitValues?, Decimal.ofDigits?]
  | cons c digits =>
    have hc := hhead c (by rw [hcs]; rfl)
    rw [hcs] at hnone
    simp [ofToken?, hcs, hnone, hc.1, hc.2]

/-- The last digits of a row write the number modulo a power of the base. -/
theorem ofDigits_lastDigits_eq_mod {base count : Nat} (hbase : 0 < base) {ds : List Nat}
    (h : ∀ d ∈ ds, d < base) :
    ofDigits base (lastDigits count ds) = ofDigits base ds % base ^ count := by
  -- the last digits are the first ones where the digits count from the last one on
  have hreverse : (lastDigits count ds).reverse = ds.reverse.take count := by
    rw [lastDigits, List.take_reverse]
  calc ofDigits base (lastDigits count ds)
      = Nat.ofDigits base (ds.reverse.take count) := by rw [ofDigits_eq, hreverse]
    _ = Nat.ofDigits base ds.reverse % base ^ count :=
        (Nat.ofDigits_mod_pow_eq_ofDigits_take count hbase ds.reverse fun d hd =>
          h d (List.mem_reverse.mp hd)).symm
    _ = ofDigits base ds % base ^ count := by rw [ofDigits_eq]

theorem binaryByte_of_writes (h : Writes bitValue? 2 cs n) :
    binaryByte (String.ofList cs) = .ok ((n % 256 : Nat) : Int) := by
  obtain ⟨ds, hds, hne, rfl⟩ := writes_iff.mp h
  have hbyte : ofDigits 2 (lastDigits 8 ds) = ofDigits 2 ds % 256 :=
    ofDigits_lastDigits_eq_mod (by decide) (forall_of_mapM (fun _ _ => bitValue?_lt) hds)
  obtain ⟨d, rest, rfl⟩ := List.exists_cons_of_ne_nil hne
  simp only [binaryByte, String.toList_ofList, hds, hbyte]

theorem binaryByte_of_not_writes (h : ¬∃ n, Writes bitValue? 2 cs n) :
    binaryByte (String.ofList cs) = .error (.binary (String.ofList cs)) := by
  unfold binaryByte
  rw [String.toList_ofList]
  split
  · rfl
  · rfl
  · next ds hne hds => exact absurd ⟨_, writes_iff.mpr ⟨ds, hds, hne, rfl⟩⟩ h

/-- A warning is given unless there are two digits. -/
theorem hexByte_of_writes (h : Writes hexDigitValue? 16 cs n) :
    ∃ warning : Option HexWarning, (warning = none ↔ cs.length = 2) ∧
      hexByte (String.ofList cs) = .ok (((n % 256 : Nat) : Int), warning) := by
  obtain ⟨ds, hds, hne, rfl⟩ := writes_iff.mp h
  have hbyte : ofDigits 16 (lastDigits 2 ds) = ofDigits 16 ds % 256 :=
    ofDigits_lastDigits_eq_mod (by decide) (forall_of_mapM (fun _ _ => hexDigitValue?_lt) hds)
  have hlength : cs.length = ds.length := (mapM_eq_some_iff_forall₂.mp hds).length_eq
  obtain ⟨d, rest, rfl⟩ := List.exists_cons_of_ne_nil hne
  simp only [hexByte, String.toList_ofList, hds, hbyte]
  refine ⟨_, ?_, rfl⟩
  rw [hlength]
  split_ifs with hlong hshort
  · simp only [false_iff]
    omega
  · simp only [false_iff]
    omega
  · simp only [true_iff]
    omega

theorem hexByte_of_not_writes (h : ¬∃ n, Writes hexDigitValue? 16 cs n) :
    hexByte (String.ofList cs) = .error (.hex (String.ofList cs)) := by
  unfold hexByte
  rw [String.toList_ofList]
  split
  · rfl
  · rfl
  · next ds hne hds => exact absurd ⟨_, writes_iff.mpr ⟨ds, hds, hne, rfl⟩⟩ h

end Forms

end Literal

/-! ## Operands -/

namespace SymbolTable

open Text Literal LineWork

variable {t : SymbolTable} {token : String} {cs : List Char} {n : Nat} {v : Int}

/-- What the token comes to as an operand and what is noted about it, by its form: a decimal numeral
saturates, a binary or hexadecimal one gives the number it writes modulo 256, any other token that
begins with a mark is malformed, and what is left is a name. -/
structure ReadsByForm (t : SymbolTable) (token : String) : Prop where
  decimal : ∀ v, WritesDecimal token.toList v →
    (t.address token).outcome = (.ok (min 255 (max 0 v)), [])
  binary : ∀ cs n, token.toList = binaryMark :: cs → Writes bitValue? 2 cs n →
    (t.address token).outcome = (.ok ((n % 256 : Nat) : Int), [])
  hex : ∀ cs n, token.toList = hexMark :: cs → Writes hexDigitValue? 16 cs n →
    ∃ warnings, (t.address token).outcome = (.ok ((n % 256 : Nat) : Int), warnings) ∧
      (∀ w ∈ warnings, w.kind = .warning) ∧ warnings.length = if cs.length = 2 then 0 else 1
  notBinary : ∀ cs, token.toList = binaryMark :: cs → (¬∃ n, Writes bitValue? 2 cs n) →
    ∃ cause, (t.address token).outcome = (.error (.issue cause), []) ∧ cause.kind = .parse
  notHex : ∀ cs, token.toList = hexMark :: cs → (¬∃ n, Writes hexDigitValue? 16 cs n) →
    ∃ cause, (t.address token).outcome = (.error (.issue cause), []) ∧ cause.kind = .parse
  name : (¬∃ v, WritesDecimal token.toList v) →
    (∀ c ∈ token.toList.head?, c ≠ binaryMark ∧ c ≠ hexMark) → ∀ a, t.lookup? token = some a →
      (t.address token).outcome = (.ok a, [])
  unknown : (¬∃ v, WritesDecimal token.toList v) →
    (∀ c ∈ token.toList.head?, c ≠ binaryMark ∧ c ≠ hexMark) → t.lookup? token = none →
      ∃ cause, (t.address token).outcome = (.error (.issue cause), []) ∧ cause.kind = .parse

theorem outcome_decimal {numeral : Decimal} (h : ofToken? token = some (.decimal numeral))
    (hv : numeral.value = .ok v) :
    (t.address token).outcome = (.ok (Byte.unsigned v), []) := by
  simp only [outcome, address, h, run_bind, LineWork.decimal, hv, run_pure]

theorem outcome_binary {digits : String} (h : ofToken? token = some (.binary digits)) :
    (t.address token).outcome =
      ((binaryByte digits).mapError fun cause => .issue (.literal cause), []) := by
  simp only [outcome, address, h]
  cases binaryByte digits <;> rfl

theorem outcome_hex {digits : String} (h : ofToken? token = some (.hex digits)) :
    (t.address token).outcome =
      match hexByte digits with
      | .ok (v, warning) => (.ok v, warning.toList.map .hexLength)
      | .error cause => (.error (.issue (.literal cause)), []) := by
  simp only [outcome, address, h]
  rcases hexByte digits with cause | ⟨v, _ | warning⟩ <;> rfl

theorem outcome_name (h : ofToken? token = none) :
    (t.address token).outcome =
      match t.lookup? token with
      | some a => (.ok a, [])
      | none => (.error (.issue (.unknownVariable token)), []) := by
  simp only [outcome, address, h]
  cases t.lookup? token <;> rfl

end SymbolTable

theorem Byte.unsigned_eq (v : Int) : Byte.unsigned v = min 255 (max 0 v) := by
  unfold Byte.unsigned
  split_ifs <;> omega

namespace SymbolTable

open Text Literal LineWork

variable {token : String}

/-- A numeral that is not too long has a value. -/
theorem value_of_not_isTooLong {numeral : Decimal} (hshort : ¬IsTooLong token)
    (h : Decimal.parse? token.toList = some numeral) : numeral.value = .ok numeral.number := by
  have hlength : numeral.digits.length ≤ digitLimit := by
    by_contra hlong
    exact hshort ⟨numeral, h, Nat.not_le.mp hlong⟩
  exact Decimal.value_eq_ok_iff.mpr ⟨hlength, rfl⟩

theorem readsByForm (t : SymbolTable) (hword : IsWord token.toList) (hshort : ¬IsTooLong token) :
    t.ReadsByForm token := by
  have hname : (¬∃ v, WritesDecimal token.toList v) →
      (∀ c ∈ token.toList.head?, c ≠ binaryMark ∧ c ≠ hexMark) → ofToken? token = none := by
    intro hdecimal hhead
    apply ofToken?_name _ hhead
    rw [Option.eq_none_iff_forall_ne_some]
    intro numeral hnumeral
    exact hdecimal ⟨_, hword.writesDecimal_iff.mpr ⟨numeral, hnumeral, rfl⟩⟩
  -- one field for each form a token can have, with what the parser makes of it
  constructor
  case decimal =>
    intro v hv
    obtain ⟨numeral, hparse, rfl⟩ := hword.writesDecimal_iff.mp hv
    rw [outcome_decimal (ofToken?_eq_decimal_iff.mpr hparse) (value_of_not_isTooLong hshort hparse),
      Byte.unsigned_eq]
  case binary =>
    intro cs n hcs hn
    rw [outcome_binary (ofToken?_binary hcs), binaryByte_of_writes hn]
    rfl
  case hex =>
    intro cs n hcs hn
    obtain ⟨warning, hwarning, hbyte⟩ := hexByte_of_writes hn
    rw [outcome_hex (ofToken?_hex hcs), hbyte]
    refine ⟨_, rfl, ?_, ?_⟩
    · intro w hw
      obtain ⟨cause, -, rfl⟩ := List.mem_map.mp hw
      rfl
    · cases warning with
      | none => simp [hwarning.mp rfl]
      | some cause =>
        have hlength : cs.length ≠ 2 := fun h => nomatch hwarning.mpr h
        simp [hlength]
  case notBinary =>
    intro cs hcs hnot
    rw [outcome_binary (ofToken?_binary hcs), binaryByte_of_not_writes hnot]
    exact ⟨_, rfl, rfl⟩
  case notHex =>
    intro cs hcs hnot
    rw [outcome_hex (ofToken?_hex hcs), hexByte_of_not_writes hnot]
    exact ⟨_, rfl, rfl⟩
  case name =>
    intro hdecimal hhead a ha
    rw [outcome_name (hname hdecimal hhead), ha]
  case unknown =>
    intro hdecimal hhead hnone
    rw [outcome_name (hname hdecimal hhead), hnone]
    exact ⟨_, rfl, rfl⟩

end SymbolTable

/-! ## Operands and typed addresses -/

namespace Address

open Text Literal SymbolTable

variable {token : String}

/-- How far the token means the same as an address that is typed and as an operand. What is taken as
the one is taken as the other, with as many warnings; and a literal that is refused as an address is
no operand either, unless it is a number that is no address, which saturates as an operand. -/
structure Agrees (token : String) : Prop where
  value : ∀ v records, Address.read token = (.ok v, records) → (∀ r ∈ records, r.level = .warning) ∧
    ∀ t : SymbolTable, ∃ warnings, (t.address token).outcome = (.ok v, warnings) ∧
      (∀ w ∈ warnings, w.kind = .warning) ∧ warnings.length = records.length
  refusal : ∀ cause records, isLiteral token = true → Address.read token = (.error cause, records) →
    (∀ t : SymbolTable, ∃ obstacle, (t.address token).outcome.1 = .error obstacle) ∨
      ∃ v, WritesDecimal token.toList v ∧ (v < 0 ∨ 255 < v) ∧ ∀ t : SymbolTable,
        (t.address token).outcome = (.ok (if v < 0 then 0 else 255), [])

/-- Nothing is trimmed from a word that is typed. -/
theorem ofList_trim (hword : IsWord token.toList) : String.ofList (trim token.toList) = token := by
  rw [hword.trim_eq, String.ofList_toList]

theorem read_decimal {numeral : Decimal} {v : Int} (hword : IsWord token.toList)
    (h : ofToken? token = some (.decimal numeral)) (hv : numeral.value = .ok v) :
    Address.read token =
      if 0 ≤ v ∧ v ≤ 255 then (.ok v, []) else (.error (.outOfRange v), []) := by
  simp only [Address.read, ofList_trim hword, ofToken, h, hv]
  by_cases hrange : 0 ≤ v ∧ v ≤ 255
  · rw [if_pos hrange, if_pos hrange]
    rfl
  · rw [if_neg hrange, if_neg hrange]

theorem read_binary {digits : String} (hword : IsWord token.toList)
    (h : ofToken? token = some (.binary digits)) :
    Address.read token = ((binaryByte digits).mapError .literal, []) := by
  simp only [Address.read, ofList_trim hword, ofToken, h]
  cases binaryByte digits <;> rfl

theorem read_hex {digits : String} (hword : IsWord token.toList)
    (h : ofToken? token = some (.hex digits)) : Address.read token =
      match hexByte digits with
      | .ok (v, warning) =>
        (.ok v, warning.toList.map fun w => ⟨.warning, .literals, w.message⟩)
      | .error cause => (.error (.literal cause), []) := by
  simp only [Address.read, ofList_trim hword, ofToken, h]
  cases hexByte digits <;> rfl

theorem read_name (hword : IsWord token.toList) (h : ofToken? token = none) :
    Address.read token = (.error (.notNumber token), []) := by
  simp only [Address.read, ofList_trim hword, ofToken, h]

/-- A token that is read as an address comes to the same as an operand, in every table. -/
theorem outcome_of_read {v : Int} {records : List LogRecord} (hword : IsWord token.toList)
    (hshort : ¬IsTooLong token) (hread : Address.read token = (.ok v, records)) :
    (∀ r ∈ records, r.level = .warning) ∧ ∀ t : SymbolTable,
      ∃ warnings, (t.address token).outcome = (.ok v, warnings) ∧
        (∀ w ∈ warnings, w.kind = .warning) ∧ warnings.length = records.length := by
  match hform : ofToken? token with
  | none =>
    rw [read_name hword hform] at hread
    cases hread
  | some (.decimal numeral) =>
    have hvalue := value_of_not_isTooLong hshort (ofToken?_eq_decimal_iff.mp hform)
    rw [read_decimal hword hform hvalue] at hread
    split at hread
    · next hrange =>
      -- an address that exists does not saturate
      cases hread
      refine ⟨nofun, fun t => ⟨[], ?_, nofun, rfl⟩⟩
      rw [outcome_decimal hform hvalue, Byte.unsigned_eq, max_eq_right hrange.1,
        min_eq_right hrange.2]
    · cases hread
  | some (.binary digits) =>
    rw [read_binary hword hform] at hread
    cases hbyte : binaryByte digits with
    | ok a =>
      rw [hbyte] at hread
      cases hread
      refine ⟨nofun, fun t => ⟨[], ?_, nofun, rfl⟩⟩
      rw [outcome_binary hform, hbyte]
      rfl
    | error cause =>
      rw [hbyte] at hread
      cases hread
  | some (.hex digits) =>
    rw [read_hex hword hform] at hread
    cases hbyte : hexByte digits with
    | ok a =>
      rw [hbyte] at hread
      cases hread
      refine ⟨by simp, fun t => ⟨a.2.toList.map .hexLength, ?_, ?_, ?_⟩⟩
      · rw [outcome_hex hform, hbyte]
      · simp [Issue.kind]
      · rw [List.length_map, List.length_map]
    | error cause =>
      rw [hbyte] at hread
      cases hread

/-- A literal that is refused as an address is refused as an operand, or it is a number that is no
address. -/
theorem refused_of_read {cause : AddressError} {records : List LogRecord}
    (hword : IsWord token.toList) (hshort : ¬IsTooLong token) (hliteral : isLiteral token = true)
    (hread : Address.read token = (.error cause, records)) :
    (∀ t : SymbolTable, ∃ obstacle, (t.address token).outcome.1 = .error obstacle) ∨
      ∃ v, WritesDecimal token.toList v ∧ (v < 0 ∨ 255 < v) ∧ ∀ t : SymbolTable,
        (t.address token).outcome = (.ok (if v < 0 then 0 else 255), []) := by
  match hform : ofToken? token with
  | none =>
    rw [isLiteral, hform] at hliteral
    cases hliteral
  | some (.decimal numeral) =>
    have hparse := ofToken?_eq_decimal_iff.mp hform
    have hvalue := value_of_not_isTooLong hshort hparse
    rw [read_decimal hword hform hvalue] at hread
    split at hread
    · cases hread
    · -- an address has to exist, while an operand is brought to the nearest one that does
      next hrange =>
      have hwrites : WritesDecimal token.toList numeral.number :=
        hword.writesDecimal_iff.mpr ⟨numeral, hparse, rfl⟩
      refine .inr ⟨numeral.number, hwrites, by omega, fun t => ?_⟩
      rw [outcome_decimal hform hvalue, Byte.unsigned]
      split_ifs <;> first | rfl | omega
  | some (.binary digits) =>
    refine .inl fun t => ?_
    rw [read_binary hword hform] at hread
    rw [outcome_binary hform]
    cases hbyte : binaryByte digits with
    | ok a =>
      rw [hbyte] at hread
      cases hread
    | error defect => exact ⟨_, rfl⟩
  | some (.hex digits) =>
    refine .inl fun t => ?_
    rw [read_hex hword hform] at hread
    rw [outcome_hex hform]
    cases hbyte : hexByte digits with
    | ok a =>
      rw [hbyte] at hread
      cases hread
    | error defect => exact ⟨_, rfl⟩

theorem agrees (hword : IsWord token.toList) (hshort : ¬IsTooLong token) : Agrees token := by
  constructor
  case value => exact fun v records hread => outcome_of_read hword hshort hread
  case refusal => exact fun cause records hliteral => refused_of_read hword hshort hliteral

end Address

namespace SymbolTable

open Text

variable {token : String}

/-- What a token without blanks comes to as an operand of a statement, and how far it comes to the
same as an address that is typed. -/
theorem readsByForm_agrees (hword : IsWord token.toList) (hshort : ¬IsTooLong token) :
    (∀ t : SymbolTable, t.ReadsByForm token) ∧ Address.Agrees token :=
  ⟨fun t => t.readsByForm hword hshort, Address.agrees hword hshort⟩

/-- Of three hexadecimal digits the last two count, with a warning. A decimal numeral in which
digits of two scripts are mixed is taken as an operand and refused as an address. -/
theorem readsByForm_agrees_long :
    (IsWord "$1aF".toList ∧ ¬IsTooLong "$1aF" ∧
      (∀ t : SymbolTable, ∃ warnings, (t.address "$1aF").outcome = (.ok 175, warnings) ∧
        (∀ w ∈ warnings, w.kind = .warning) ∧ warnings.length = 1)) ∧
    (IsWord "٣00".toList ∧ ¬IsTooLong "٣00" ∧
      (∀ t : SymbolTable, (t.address "٣00").outcome = (.ok 255, [])) ∧
      Address.read "٣00" = (.error (.outOfRange 300), []) ∧
      ((∀ t : SymbolTable, ∃ obstacle, (t.address "٣00").outcome.1 = .error obstacle) ∨
        ∃ v, WritesDecimal "٣00".toList v ∧ (v < 0 ∨ 255 < v) ∧ ∀ t : SymbolTable,
          (t.address "٣00").outcome = (.ok (if v < 0 then 0 else 255), []))) := by
  have hhex : IsWord "$1aF".toList := by decide
  have hhexShort : ¬IsTooLong "$1aF" := by
    rintro ⟨numeral, hparse, -⟩
    cases hparse
  have hdigits : Writes hexDigitValue? 16 ['1', 'a', 'F'] 431 :=
    writes_iff.mpr ⟨[1, 10, 15], by decide, by decide, by decide⟩
  have hmixed : IsWord "٣00".toList := by decide
  have hmixedShort : ¬IsTooLong "٣00" := by
    rintro ⟨numeral, hparse, hlong⟩
    cases hparse
    simp at hlong
  have hmixedDigits : Writes digitValue? 10 "٣00".toList 300 :=
    writes_iff.mpr ⟨[3, 0, 0], by decide, by decide, by decide⟩
  have hread : Address.read "٣00" = (.error (.outOfRange 300), []) := by decide
  refine ⟨⟨hhex, hhexShort, fun t => ?_⟩, hmixed, hmixedShort, fun t => ?_, hread, ?_⟩
  · exact ((readsByForm_agrees hhex hhexShort).1 t).hex ['1', 'a', 'F'] 431 rfl hdigits
  · exact ((readsByForm_agrees hmixed hmixedShort).1 t).decimal 300 (.plain hmixedDigits)
  · exact (readsByForm_agrees hmixed hmixedShort).2.refusal _ _ (by decide) hread

end SymbolTable

end Subleq
