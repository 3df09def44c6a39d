/-!
# Subleq.Byte — eight-bit fields

All numbers of the machine are unbounded integers that are brought into eight bits at a few
places:

1. an address saturates to `[0, 255]` (`unsigned`);
2. a data value saturates to `[-127, 127]` and is stored as a two's complement pattern (`signed`),
   which `decode` reads back;
3. the result of a subtraction that leaves `[-128, 127]` is moved back by 255, not by 256 (`fold`);
4. a field of a cell is the row of its low bits (`bits`).
-/

namespace Subleq.Byte

/-- An address: values below 0 become 0 and values above 255 become 255. -/
def unsigned (v : Int) : Int :=
  if v ≤ 0 then 0 else if 255 ≤ v then 255 else v

/-- The weights of the bits below the sign, from the most significant one on. -/
def weights : List Int := [64, 32, 16, 8, 4, 2, 1]

/-- Takes away each weight in turn that what remains is large enough for, and sets its bit. -/
def setBits : List Int → Int → Int → Int
  | [], _, pattern => pattern
  | w :: ws, remaining, pattern =>
    if w ≤ remaining then setBits ws (remaining - w) (pattern + w)
    else setBits ws remaining pattern

/-- A two's complement pattern in `[0, 255]`. The value saturates to `[-127, 127]`, so the pattern
of -128 never arises; a negative one is encoded bit by bit from its distance to -128. -/
def signed (v : Int) : Int :=
  if 127 ≤ v then 127
  else if v ≤ -127 then 129
  else if v = 0 then 0
  else if 0 < v then v
  else setBits weights (v + 128) 128

/-- The value of the two's complement pattern in the low eight bits. -/
def decode (pattern : Int) : Int :=
  let low := pattern % 256
  if low < 128 then low else low - 256

/-- Brings the difference of two signed bytes back into a signed byte. The machine folds by 255,
so that its arithmetic is that of the integers modulo 255. -/
def fold (v : Int) : Int :=
  if v < -128 then v + 255 else if 127 < v then v - 255 else v

theorem unsigned_mem (v : Int) : 0 ≤ unsigned v ∧ unsigned v ≤ 255 := by
  unfold unsigned; split <;> (try split) <;> omega

/-- The sum of weights. -/
def total (ws : List Int) : Int := ws.foldr (· + ·) 0

/-- No weight exceeds the sum of those after it by more than one. -/
def Fills : List Int → Prop
  | [] => True
  | w :: ws => w ≤ total ws + 1 ∧ Fills ws

instance decidableFills : (ws : List Int) → Decidable (Fills ws)
  | [] => inferInstanceAs (Decidable True)
  | _ :: ws =>
    have := decidableFills ws
    inferInstanceAs (Decidable (_ ∧ _))

/-- With such weights nothing remains in the end. -/
theorem setBits_eq {ws : List Int} (h : Fills ws) {remaining : Int} (hpos : 0 ≤ remaining)
    (hsum : remaining ≤ total ws) (pattern : Int) :
    setBits ws remaining pattern = pattern + remaining := by
  induction ws generalizing remaining pattern with
  | nil =>
    have hnil : total [] = 0 := rfl
    rw [setBits]
    omega
  | cons w ws ih =>
    rcases h with ⟨hw, hrest⟩
    have hcons : total (w :: ws) = w + total ws := rfl
    unfold setBits
    split
    · rw [ih hrest (by omega) (by omega)]
      omega
    · exact ih hrest hpos (by omega) pattern

/-- Within the range in which nothing saturates, a pattern is the number modulo 256. -/
theorem signed_eq (v : Int) :
    signed v = if 127 ≤ v then 127 else if v ≤ -127 then 129 else v % 256 := by
  unfold signed
  split
  · rfl
  · split
    · rfl
    · split
      · omega
      · split
        · omega
        · have hsum : total weights = 127 := rfl
          rw [setBits_eq (by decide) (by omega) (by omega)]
          omega

theorem signed_mem (v : Int) : 0 ≤ signed v ∧ signed v ≤ 255 := by
  rw [signed_eq]; split <;> (try split) <;> omega

theorem decode_mem (p : Int) : -128 ≤ decode p ∧ decode p ≤ 127 := by
  simp only [decode]; split <;> omega

theorem decode_emod (p : Int) : decode p % 256 = p % 256 := by
  simp only [decode]; split <;> omega

/-- Storing a number and reading it back brings it into the range of what can be stored. -/
theorem decode_signed (v : Int) : decode (signed v) = min 127 (max (-127) v) := by
  rw [signed_eq]
  by_cases hhigh : 127 ≤ v
  · have hmin : min 127 (max (-127) v) = 127 := by omega
    rw [if_pos hhigh, hmin]
    rfl
  · rw [if_neg hhigh]
    by_cases hlow : v ≤ -127
    · have hmax : min 127 (max (-127) v) = -127 := by omega
      rw [if_pos hlow, hmax]
      rfl
    · rw [if_neg hlow]
      simp only [decode]
      split
      · omega
      · omega

theorem fold_of_mem {v : Int} (h : -128 ≤ v) (h' : v ≤ 127) : fold v = v := by
  unfold fold; split <;> (try split) <;> omega

/-! ## Rows of bits -/

/-- The character of a bit. -/
def bitChar (n : Nat) : Char := if n % 2 = 0 then '0' else '1'

/-- The low bits of a number, the most significant first. -/
def bitChars : Nat → Nat → List Char
  | 0, _ => []
  | width + 1, n => bitChars width (n / 2) ++ [bitChar n]

/-- The low bits of an integer in a field of the given width; a field of width 0 shows a single
zero. -/
def bits (v : Int) (width : Nat) : String :=
  if width = 0 then "0" else String.ofList (bitChars width (v % Int.pow 2 width).toNat)

/-- A width below zero. -/
inductive WidthError where
  | negative
deriving Repr, DecidableEq

def WidthError.message : WidthError → String
  | .negative => "negative shift count"

/-- The low bits of an integer in a field whose width is checked. -/
def bitField (v width : Int) : Except WidthError String :=
  if width < 0 then .error .negative else .ok (bits v width.toNat)

theorem length_bitChars (width n : Nat) : (bitChars width n).length = width := by
  induction width generalizing n with
  | zero => rfl
  | succ width ih => simp [bitChars, ih]

end Subleq.Byte
