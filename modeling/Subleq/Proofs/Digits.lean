import Mathlib
import Subleq.Cell
import Subleq.Literal

/-!
# Subleq.Proofs.Digits — numbers and rows of digits

A row of digits writes a number below the power of the base that its length gives, so that the
literals of the source are bytes; and the bits that are written for a number are read back as the
number in as many bits (`digits_of_bitChars`).
-/

namespace Subleq

namespace Text

/-! ## Rows of digits -/

@[simp] theorem ofDigits_nil (base : Nat) : ofDigits base [] = 0 := rfl

theorem ofDigits_concat (base : Nat) (ds : List Nat) (d : Nat) :
    ofDigits base (ds ++ [d]) = ofDigits base ds * base + d := by
  simp [ofDigits, List.foldl_append]

theorem ofDigits_lt {base : Nat} {ds : List Nat} (h : ∀ d ∈ ds, d < base) :
    ofDigits base ds < base ^ ds.length := by
  induction ds using List.reverseRecOn with
  | nil => simp
  | append_singleton ds d ih =>
    have hd : d < base := h d (by simp)
    have hds := ih fun e he => h e (by simp [he])
    rw [ofDigits_concat, List.length_append, List.length_singleton, Nat.pow_succ]
    calc ofDigits base ds * base + d < ofDigits base ds * base + base := by omega
      _ = (ofDigits base ds + 1) * base := by ring
      _ ≤ base ^ ds.length * base := Nat.mul_le_mul_right base hds

/-- The digits that are read from characters have what every single digit has. -/
theorem forall_of_mapM {P : Nat → Prop} {f : Char → Option Nat}
    (hf : ∀ c d, f c = some d → P d) {cs : List Char} {ds : List Nat}
    (h : cs.mapM f = some ds) : ∀ d ∈ ds, P d := by
  induction cs generalizing ds with
  | nil =>
    cases h
    simp
  | cons c cs ih =>
    rw [List.mapM_cons] at h
    obtain ⟨d, hd, hrest⟩ := Option.bind_eq_some_iff.mp h
    obtain ⟨ds', hds', heq⟩ := Option.bind_eq_some_iff.mp hrest
    cases heq
    intro e he
    rcases List.mem_cons.mp he with rfl | he
    · exact hf c _ hd
    · exact ih hds' e he

theorem bitValue?_lt {c : Char} {d : Nat} (h : bitValue? c = some d) : d < 2 := by
  unfold bitValue? at h
  split at h
  · cases h
    decide
  · split at h
    · cases h
      decide
    · simp at h

theorem hexDigitValue?_lt {c : Char} {d : Nat} (h : hexDigitValue? c = some d) : d < 16 := by
  have hle : ∀ {a b : Char}, a ≤ b → a.toNat ≤ b.toNat := fun hab => hab
  unfold hexDigitValue? at h
  split at h
  · next hc =>
    have : c.toNat ≤ '9'.toNat := hle hc.2
    have h9 : '9'.toNat = 57 := rfl
    have h0 : '0'.toNat = 48 := rfl
    have := Option.some.inj h
    omega
  · split at h
    · next hc =>
      have : c.toNat ≤ 'f'.toNat := hle hc.2
      have hf : 'f'.toNat = 102 := rfl
      have ha : 'a'.toNat = 97 := rfl
      have := Option.some.inj h
      omega
    · split at h
      · next hc =>
        have : c.toNat ≤ 'F'.toNat := hle hc.2
        have hF : 'F'.toNat = 70 := rfl
        have hA : 'A'.toNat = 65 := rfl
        have := Option.some.inj h
        omega
      · simp at h

/-- The bits written for a number are read back as the number in as many bits. -/
theorem digits_of_bitChars (width n : Nat) :
    ∃ ds, (Byte.bitChars width n).mapM bitValue? = some ds ∧ ds.length = width ∧
      ofDigits 2 ds = n % 2 ^ width := by
  induction width generalizing n with
  | zero => exact ⟨[], rfl, rfl, by simp [Nat.mod_one]⟩
  | succ width ih =>
    obtain ⟨ds, hds, hlength, hvalue⟩ := ih (n / 2)
    have hbit : bitValue? (Byte.bitChar n) = some (n % 2) := by
      unfold Byte.bitChar
      split
      · next h =>
        rw [h]
        rfl
      · next h =>
        have hone : n % 2 = 1 := by omega
        rw [hone]
        rfl
    refine ⟨ds ++ [n % 2], ?_, by simp [hlength], ?_⟩
    · simp [Byte.bitChars, hds, hbit]
    · rw [ofDigits_concat, hvalue, Nat.pow_succ, Nat.mul_comm (2 ^ width) 2, Nat.mod_mul]
      omega

end Text

/-! ## Literals are bytes -/

namespace Literal

/-- A token is a decimal literal exactly if it is a decimal numeral. -/
theorem ofToken?_eq_decimal_iff {token : String} {numeral : Text.Decimal} :
    ofToken? token = some (.decimal numeral) ↔ Text.Decimal.parse? token.toList = some numeral := by
  unfold ofToken?
  cases Text.Decimal.parse? token.toList with
  | some _ => simp
  | none =>
    simp only [reduceCtorEq, iff_false]
    split
    · split_ifs <;> simp
    · simp

/-- A number whose last digits are taken is below the power of the base. -/
theorem ofDigits_lastDigits {base count : Nat} (hbase : 0 < base) {ds : List Nat}
    (h : ∀ d ∈ ds, d < base) : Text.ofDigits base (lastDigits count ds) < base ^ count := by
  have hlt : Text.ofDigits base (lastDigits count ds) < base ^ (lastDigits count ds).length :=
    Text.ofDigits_lt fun d hd => h d (List.mem_of_mem_drop hd)
  have hlength : (lastDigits count ds).length ≤ count := by
    simp only [lastDigits, List.length_drop]
    omega
  exact Nat.lt_of_lt_of_le hlt (Nat.pow_le_pow_right hbase hlength)

theorem binaryByte_mem {digits : String} {v : Int} (h : binaryByte digits = .ok v) :
    0 ≤ v ∧ v ≤ 255 := by
  unfold binaryByte at h
  split at h
  · simp at h
  · simp at h
  · next ds _ hds =>
    have hlt : Text.ofDigits 2 (lastDigits 8 ds) < 2 ^ 8 :=
      ofDigits_lastDigits (by decide) (Text.forall_of_mapM (fun _ _ => Text.bitValue?_lt) hds)
    have := Except.ok.inj h
    omega

theorem hexByte_mem {digits : String} {v : Int} {w : Option HexWarning}
    (h : hexByte digits = .ok (v, w)) : 0 ≤ v ∧ v ≤ 255 := by
  unfold hexByte at h
  split at h
  · simp at h
  · simp at h
  · next ds _ hds =>
    have hlt : Text.ofDigits 16 (lastDigits 2 ds) < 16 ^ 2 :=
      ofDigits_lastDigits (by decide) (Text.forall_of_mapM (fun _ _ => Text.hexDigitValue?_lt) hds)
    have := (Prod.mk.inj (Except.ok.inj h)).1
    omega

end Literal

end Subleq
