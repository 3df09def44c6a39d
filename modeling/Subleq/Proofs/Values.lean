import Mathlib
import Subleq.Proofs.Continuation
import Subleq.Proofs.DataSegment
import Subleq.Proofs.Names
import Subleq.Proofs.SignedBytes

/-!
# Subleq.Proofs.Values — the values of definitions

Reading a pattern takes any number to the one signed byte that is congruent to it modulo 256
(`Byte.wraps_iff`). The pattern of a number is made from its distance to the ends of the range, and
reads as the number brought into that range (`Byte.decode_signed`).

A definition goes through both. The value that it gives depends on the form of its token alone
(`SymbolTable.ValueByForm`), and on the names that were known before the line: a name means its cell,
also where the line defines it again. What is placed for the line loads this value into the cell of
the defined name, whatever lines are compiled before and after it (`values_of_definitions`).
-/

namespace Subleq

open Layout Text

/-! ## Signed bytes -/

namespace Byte

/-- The number wraps around to the signed byte. -/
def Wraps (w x : Int) : Prop := IsSigned x ∧ x ≡ w [ZMOD 256]

theorem wraps_decode {p w : Int} (h : p ≡ w [ZMOD 256]) : Wraps w (decode p) :=
  ⟨decode_mem p, (decode_emod p).trans h⟩

/-- Each number wraps around to one signed byte, and this is what it reads as. -/
theorem wraps_iff {w x : Int} : Wraps w x ↔ x = decode w := by
  constructor
  · rintro ⟨⟨hlow, hhigh⟩, hcongr⟩
    have hmem := decode_mem w
    have hmod : x % 256 = decode w % 256 := hcongr.trans (decode_emod w).symm
    omega
  · rintro rfl
    exact wraps_decode rfl

theorem signed_modEq (v : Int) : signed v ≡ min 127 (max (-127) v) [ZMOD 256] := by
  rw [← decode_signed]
  exact (decode_emod (signed v)).symm

/-- The pattern of -128 never arises. -/
theorem signed_ne (v : Int) : signed v ≠ 128 := by
  intro h
  have hread := decode_signed v
  have hleast : decode 128 = -128 := rfl
  rw [h, hleast] at hread
  omega

end Byte

/-! ## Tokens -/

namespace SymbolTable

open LineWork

variable {t : SymbolTable} {token : String} {pattern a : Int}

/-- The value that a definition gives, by the form of the token in its second place: a decimal
numeral is brought into the range of what can be stored, and any other token wraps around, a binary
or hexadecimal one from the number that it writes and a name from its cell. There is no other form. -/
structure ValueByForm (t : SymbolTable) (token : String) (x : Int) : Prop where
  decimal : ∀ v, WritesDecimal token.toList v → x = min 127 (max (-127) v)
  binary : ∀ cs n, token.toList = binaryMark :: cs → Writes bitValue? 2 cs n → Byte.Wraps n x
  hex : ∀ cs n, token.toList = hexMark :: cs → Writes hexDigitValue? 16 cs n → Byte.Wraps n x
  name : ∀ a, t.lookup? token = some a → Byte.Wraps a x
  form : (∃ v, WritesDecimal token.toList v) ∨
    (∃ cs n, token.toList = binaryMark :: cs ∧ Writes bitValue? 2 cs n) ∨
    (∃ cs n, token.toList = hexMark :: cs ∧ Writes hexDigitValue? 16 cs n) ∨
    ∃ a, t.lookup? token = some a

theorem Yields.not_isTooLong (h : t.Yields token pattern) : ¬IsTooLong token := by
  intro hlong
  obtain ⟨cause, hraises⟩ := (exists_raises_address_iff (t := t)).mpr hlong
  have hvalue : (t.value token).outcome.1 = .error (.tooManyDigits cause) :=
    raises_value_iff.mpr hraises
  unfold Yields at h
  rw [h] at hvalue
  cases hvalue

/-- A token that is no decimal numeral gives its address. -/
theorem Yields.resolves (h : t.Yields token pattern)
    (hother : ∀ numeral, Literal.ofToken? token ≠ some (.decimal numeral)) :
    t.Resolves token pattern := by
  unfold Yields SymbolTable.value at h
  split at h
  · next numeral hliteral => exact absurd hliteral (hother numeral)
  · exact h

/-- What is known as a name is no literal. -/
theorem Allotted.ofToken?_eq_none (ht : t.Allotted) (ha : t.lookup? token = some a) :
    Literal.ofToken? token = none := by
  rcases lookup?_cases ha with ⟨rfl, -⟩ | ⟨v, hv, rfl, -⟩
  · rfl
  · exact (nameError?_eq_none_iff.mp (ht.named v hv)).2

/-- A token that has an address is a decimal numeral, or digits after a mark, or a name. -/
theorem ReadsByForm.form (h : t.ReadsByForm token) (ha : t.Resolves token a) :
    (∃ v, WritesDecimal token.toList v) ∨
    (∃ cs n, token.toList = binaryMark :: cs ∧ Writes bitValue? 2 cs n) ∨
    (∃ cs n, token.toList = hexMark :: cs ∧ Writes hexDigitValue? 16 cs n) ∨
    ∃ a, t.lookup? token = some a := by
  have hrefused : ¬∃ cause, (t.address token).outcome = (.error (.issue cause), []) ∧
      cause.kind = .parse := by
    rintro ⟨cause, hoperand, -⟩
    unfold Resolves at ha
    rw [hoperand] at ha
    cases ha
  by_cases hdecimal : ∃ v, WritesDecimal token.toList v
  · exact .inl hdecimal
  by_cases hbinary : ∃ cs, token.toList = binaryMark :: cs
  · obtain ⟨cs, hcs⟩ := hbinary
    by_cases hwrites : ∃ n, Writes bitValue? 2 cs n
    · obtain ⟨n, hn⟩ := hwrites
      exact .inr (.inl ⟨cs, n, hcs, hn⟩)
    · exact absurd (h.notBinary cs hcs hwrites) hrefused
  by_cases hhex : ∃ cs, token.toList = hexMark :: cs
  · obtain ⟨cs, hcs⟩ := hhex
    by_cases hwrites : ∃ n, Writes hexDigitValue? 16 cs n
    · obtain ⟨n, hn⟩ := hwrites
      exact .inr (.inr (.inl ⟨cs, n, hcs, hn⟩))
    · exact absurd (h.notHex cs hcs hwrites) hrefused
  -- what has none of the marks can only be a name
  have hmarks : ∀ c ∈ token.toList.head?, c ≠ binaryMark ∧ c ≠ hexMark := by
    intro c hc
    obtain ⟨cs, hcs⟩ : ∃ cs, token.toList = c :: cs := List.head?_eq_some_iff.mp hc
    constructor
    · rintro rfl
      exact hbinary ⟨cs, hcs⟩
    · rintro rfl
      exact hhex ⟨cs, hcs⟩
  cases hlookup : t.lookup? token with
  | none => exact absurd (h.unknown hdecimal hmarks hlookup) hrefused
  | some a => exact .inr (.inr (.inr ⟨a, rfl⟩))

theorem valueByForm (ht : t.Allotted) (hword : IsWord token.toList)
    (h : t.Yields token pattern) : t.ValueByForm token (Byte.decode pattern) := by
  have hreads := t.readsByForm hword h.not_isTooLong
  -- what a token other than a numeral comes to as an operand is the pattern
  have hwraps : (∀ numeral, Literal.ofToken? token ≠ some (.decimal numeral)) → ∀ {b w : Int},
      t.Resolves token b → b ≡ w [ZMOD 256] → Byte.Wraps w (Byte.decode pattern) := by
    intro hother b w hb hcongr
    rw [(h.resolves hother).unique hb]
    exact Byte.wraps_decode hcongr
  have hmod : ∀ n : Nat, ((n % 256 : Nat) : Int) ≡ n [ZMOD 256] := by
    intro n
    show ((n % 256 : Nat) : Int) % 256 = n % 256
    omega
  constructor
  case decimal =>
    intro v hv
    obtain ⟨numeral, hparse, rfl⟩ := hword.writesDecimal_iff.mp hv
    rw [h.eq_signed hparse, Byte.decode_signed]
  case binary =>
    intro cs n hcs hn
    have hother : ∀ numeral, Literal.ofToken? token ≠ some (.decimal numeral) := by
      simp [Literal.ofToken?_binary hcs]
    exact hwraps hother (congrArg Prod.fst (hreads.binary cs n hcs hn)) (hmod n)
  case hex =>
    intro cs n hcs hn
    have hother : ∀ numeral, Literal.ofToken? token ≠ some (.decimal numeral) := by
      simp [Literal.ofToken?_hex hcs]
    obtain ⟨warnings, hoperand, -, -⟩ := hreads.hex cs n hcs hn
    exact hwraps hother (congrArg Prod.fst hoperand) (hmod n)
  case name =>
    intro a ha
    have hnone := ht.ofToken?_eq_none ha
    exact hwraps (by simp [hnone]) ((resolves_name_iff hnone a).mpr ha) rfl
  case form =>
    by_cases hdecimal : ∃ v, WritesDecimal token.toList v
    · exact .inl hdecimal
    · have hother : ∀ numeral, Literal.ofToken? token ≠ some (.decimal numeral) := by
        intro numeral hliteral
        have hparse := Literal.ofToken?_eq_decimal_iff.mp hliteral
        exact hdecimal ⟨_, hword.writesDecimal_iff.mpr ⟨numeral, hparse, rfl⟩⟩
      exact hreads.form (h.resolves hother)

end SymbolTable

/-! ## Lines before and after -/

namespace Session

variable {s s' : Session} {text name token : String} {line : Int} {st : Statement} {code : Code}

/-- A session that continues another one in the layout of every program. -/
structure Grown (s₀ s : Session) : Prop where
  extensible : s.Extensible
  standard : s.symbols.Standard
  continues : s₀.Continues s
  extends_symbols : s.symbols.Extends s₀.symbols

theorem Grown.self (h : s.Grown s') : s'.Grown s' :=
  ⟨h.extensible, h.standard, .refl s', .refl s'.symbols⟩

theorem Grown.compileLine (h : s.Grown s') (line : Int × String) :
    s.Grown (s'.compileLine line.2 line.1).1 := by
  have hextensible := h.extensible.compileLine line.2 line.1
  constructor
  case extensible => exact hextensible.1
  case continues => exact h.continues.trans hextensible.2
  case standard =>
    rcases symbols_compileLine s' line with hsame | ⟨name, pattern, n, v, -, hdefine⟩
    · rw [hsame]
      exact h.standard
    · obtain ⟨-, -, hheap, hcapacity⟩ := SymbolTable.define_frame hdefine
      exact ⟨h.standard.toAllotted.define hdefine, hheap.trans h.standard.heapStart,
        hcapacity.trans h.standard.capacity⟩
  case extends_symbols =>
    rcases symbols_compileLine s' line with hsame | ⟨name, pattern, n, v, -, hdefine⟩
    · rw [hsame]
      exact h.extends_symbols
    · exact (SymbolTable.extends_define hdefine).trans h.extends_symbols

theorem Grown.afterLines (h : s.Grown s') (lines : List (Int × String)) :
    s.Grown (s'.afterLines lines) := by
  induction lines generalizing s' with
  | nil => exact h
  | cons line lines ih => exact ih (h.compileLine line)

/-- Lines that do not end the compilation are compiled one after the other. -/
theorem afterLines_eq_of_compileLines {lines : List (Int × String)}
    (h : s.compileLines lines = (s', none)) : s.afterLines lines = s' := by
  induction lines generalizing s with
  | nil =>
    cases h
    rfl
  | cons line lines ih =>
    unfold compileLines at h
    split at h
    · cases h
    · next s₁ outcome hraised hline =>
      have hfirst : (s.compileLine line.2 line.1).1 = s₁ := congrArg Prod.fst hline
      rw [← ih h, ← hfirst]
      rfl

theorem program_eq_afterLines {symbols : SymbolTable} {source : String}
    (h : compile symbols source = (s, none)) :
    s.program = ((start symbols).afterLines (numberedLines source)).program := by
  obtain ⟨s₁, message, hlines, rfl⟩ := exists_compileLines h
  rw [afterLines_eq_of_compileLines hlines]
  rfl

theorem grown_of_fresh (hsymbols : s.symbols = {})
    (hbeyond : ∀ x, s.pc ≤ x → s.program[x]? = none) : s.Grown s := by
  have hstandard : s.symbols.Standard := by
    rw [hsymbols]
    exact ⟨SymbolTable.allotted_empty _ _, rfl, rfl⟩
  exact ⟨⟨hstandard.toAllotted, hbeyond⟩, hstandard, .refl s, .refl _⟩

/-! ## Definitions -/

/-- A definition that was compiled in the first session has given its name a value and a cell in the
second one: there is a load of the value into the cell, and this is what executing it comes to. The
value is that of the token in the first session. -/
structure DefinesValue (s : Session) (name token : String) (s' : Session) (x a : Int) : Prop where
  value : s.symbols.ValueByForm token x
  cell : s'.symbols.lookup? name = some a
  placed : s'.program[s.pc]? = some (.load x a (s.pc + 1))
  executes : ∀ m : Machine, m.program = s'.program → m.memory.portAddress = ioPort →
    m.pc = s.pc → m.step.1 = .running ∧ m.step.2.pc = s.pc + 1 ∧ m.step.2.memory.get? a = some x

/-- What is placed for a definition that is accepted. -/
theorem exists_variable_of_emitted (hparse : Statement.parse text line = .ok (some st))
    (hclause : st.clause = .define name token)
    (hemitted : (s.compileLine text line).2 = .emitted code) :
    ∃ pattern, ∃ v ∈ (s.compileLine text line).1.symbols.variables,
      v.name = name ∧ s.symbols.Yields token pattern ∧ s.pc + 1 ≤ programLimit ∧
      (s.compileLine text line).1.pc = s.pc + 1 ∧
      (s.compileLine text line).1.program[s.pc]? =
        some (.load (Byte.decode pattern) v.address (s.pc + 1)) := by
  obtain ⟨st', hparse', hplaced⟩ := placed_of_emitted hemitted
  obtain rfl : st' = st := by
    rw [hparse] at hparse'
    cases hparse'
    rfl
  obtain ⟨warnings, hcoded, -⟩ := hplaced.coded
  rcases hcoded.kind with ⟨name', token', pattern, v, hclause', hyields, hdefine, rfl, -⟩ |
    ⟨op, op', hclause', -, -, -⟩
  · rw [hclause] at hclause'
    cases hclause'
    obtain ⟨⟨hv, hname⟩, -⟩ := SymbolTable.define_frame hdefine
    refine ⟨pattern, v, hv, hname, hyields, hcoded.room, hplaced.pc, ?_⟩
    rw [hplaced.program, Program.get?_insertCells, Code.cells_define]
    simp
  · rw [hclause] at hclause'
    cases hclause'

/-- A load into a cell other than the port's leaves its value there. -/
theorem executes_load {m : Machine} {x a pc : Int} (hpc : m.pc = pc) (hroom : pc + 1 ≤ programLimit)
    (hport : m.memory.portAddress = ioPort) (ha : 0 ≤ a ∧ a < zero)
    (hload : m.program[pc]? = some (.load x a (pc + 1))) :
    m.step.1 = .running ∧ m.step.2.pc = pc + 1 ∧ m.step.2.memory.get? a = some x := by
  simp only [programLimit, zero] at hroom ha
  have hfetch : m.fetch m.pc = .load x a (pc + 1) := by
    rw [Machine.fetch, Program.fetch, hpc, hload]
    rfl
  have hlt : m.pc < Machine.maxPc := by
    simp only [Machine.maxPc]
    omega
  obtain ⟨hrunning, hnext, hmemory⟩ := Machine.step_load hlt hfetch
  refine ⟨?_, hnext, ?_⟩
  · rw [hrunning, Machine.goesOn, if_neg]
    simp only [Machine.maxPc]
    omega
  · have hcell : Memory.cellOf a = a := Memory.cellOf_eq (by omega) (by omega)
    have hother : Memory.cellOf a ≠ m.memory.portAddress := by
      rw [hport, hcell]
      simp only [ioPort]
      omega
    rw [hmemory, Memory.get?, Memory.cells_write m.memory hother, if_pos rfl]

/-- Patterns and values. The pattern of any number is a byte other than 128; it is congruent modulo
256 to the number brought into `[-127, 127]`, and is read as that. Any number is read as the one
signed byte that is congruent to it modulo 256. In a session that began without variables, with
lines compiled before and after it, a definition that is accepted has placed a load of the value that
its token had before the line, and executing it leaves this value in the cell of the defined name. -/
theorem values_of_definitions :
    (∀ v : Int, (0 ≤ Byte.signed v ∧ Byte.signed v ≤ 255) ∧ Byte.signed v ≠ 128 ∧
      Byte.signed v ≡ min 127 (max (-127) v) [ZMOD 256] ∧
      Byte.decode (Byte.signed v) = min 127 (max (-127) v)) ∧
    (∀ w x : Int, x = Byte.decode w ↔ Byte.IsSigned x ∧ x ≡ w [ZMOD 256]) ∧
    ∀ s₀ : Session, s₀.symbols = {} → (∀ x, s₀.pc ≤ x → s₀.program[x]? = none) →
      ∀ before more text line st name token code,
        Statement.parse text line = .ok (some st) → st.clause = .define name token →
        ((s₀.afterLines before).compileLine text line).2 = .emitted code →
        ∃ x a, (s₀.afterLines before).DefinesValue name token
          (((s₀.afterLines before).compileLine text line).1.afterLines more) x a := by
  refine ⟨?_, fun w x => Byte.wraps_iff.symm, ?_⟩
  · intro v
    exact ⟨Byte.signed_mem v, Byte.signed_ne v, Byte.signed_modEq v, Byte.decode_signed v⟩
  · intro s₀ hsymbols hbeyond before more text line st name token code hparse hclause hemitted
    have hbefore := (grown_of_fresh hsymbols hbeyond).afterLines before
    generalize s₀.afterLines before = s at hbefore hemitted ⊢
    have hline : s₀.Grown (s.compileLine text line).1 := hbefore.compileLine (line, text)
    have hmore := hline.self.afterLines more
    obtain ⟨pattern, v, hv, rfl, hyields, hroom, hpc, hload⟩ :=
      exists_variable_of_emitted hparse hclause hemitted
    have hword : IsWord token.toList := by
      apply Statement.isWord_of_mem_operands hparse
      rw [hclause]
      exact List.mem_cons_of_mem _ (List.mem_cons_self ..)
    -- later lines place their cells behind the load, which stays as it is
    have hplaced : ((s.compileLine text line).1.afterLines more).program[s.pc]? =
        some (.load (Byte.decode pattern) v.address (s.pc + 1)) := by
      rw [hmore.continues.program s.pc (by omega), hload]
    refine ⟨Byte.decode pattern, v.address, ?_, ?_, hplaced, ?_⟩
    · exact SymbolTable.valueByForm hbefore.standard.toAllotted hword hyields
    · exact hmore.extends_symbols _ _ (hline.standard.toAllotted.lookup?_name hv)
    · intro m hprogram hport hpc'
      have hmem := hline.standard.variable_mem hv
      exact executes_load hpc' hroom hport ⟨by omega, hmem.2⟩ (by rw [hprogram, hplaced])

/-- A variable is given a number that is too large, and then its own name for a value. -/
def selfNaming : String := "DEF a 300\nDEF a a\nDEF b $1F3"

/-- What counts is the cell of the variable, 249, which wraps around to -7. -/
theorem values_of_definitions_self : ∃ s s' : Session,
    s = (start {}).afterLines [(1, "DEF a 300")] ∧
    (s.compileLine "DEF a a" 2).2 = .emitted (.define (-7) 249) ∧
    s'.program = (compile {} selfNaming).1.program ∧ s.DefinesValue "a" "a" s' (-7) 249 := by
  have hbeyond := (extensible_start heapStart maxVariables).beyond
  have hparse : Statement.parse "DEF a a" 2 = .ok (some ⟨.define "a" "a", 2, "DEF a a"⟩) := by
    decide +kernel
  have hemitted : (((start {}).afterLines [(1, "DEF a 300")]).compileLine "DEF a a" 2).2 =
      .emitted (.define (-7) 249) := by decide +kernel
  obtain ⟨x, a, hdefines⟩ := values_of_definitions.2.2 (start {}) rfl hbeyond [(1, "DEF a 300")]
    [(3, "DEF b $1F3")] "DEF a a" 2 _ "a" "a" _ hparse rfl hemitted
  have hcell : ((((start {}).afterLines [(1, "DEF a 300")]).compileLine "DEF a a" 2).1.afterLines
      [(3, "DEF b $1F3")]).symbols.lookup? "a" = some 249 := by decide +kernel
  have hbefore : ((start {}).afterLines [(1, "DEF a 300")]).symbols.lookup? "a" = some 249 := by
    decide +kernel
  obtain rfl : a = 249 := Option.some.inj (hdefines.cell.symm.trans hcell)
  obtain rfl : x = -7 := Byte.wraps_iff.mp (hdefines.value.name 249 hbefore)
  refine ⟨_, _, rfl, hemitted, ?_, hdefines⟩
  have hlines : numberedLines selfNaming =
      [(1, "DEF a 300"), (2, "DEF a a"), (3, "DEF b $1F3")] := by decide +kernel
  have hraised : (compile {} selfNaming).2 = none := by decide +kernel
  rw [program_eq_afterLines (compile_eq hraised), hlines]
  rfl

end Session

end Subleq
