/-!
# Subleq.Text.Blank — blanks and words

The white space of the source language is the Unicode white space together with the four
information separators. A line is cut into words at its blanks; the ends of a line or of a field
can be trimmed.
-/

namespace Subleq.Text

/-- White space: the ASCII controls U+0009 to U+000D, the separators U+001C to U+001F, the space,
the next-line character and the Unicode space separators. -/
def isBlank (c : Char) : Bool :=
  let n := c.toNat
  (9 ≤ n && n ≤ 13) || (28 ≤ n && n ≤ 32) || n == 0x85 || n == 0xA0 || n == 0x1680 ||
    (0x2000 ≤ n && n ≤ 0x200A) || n == 0x2028 || n == 0x2029 || n == 0x202F || n == 0x205F ||
    n == 0x3000

/-! ## Trimming -/

/-- The characters from the first one that is not blank. -/
def trimStart (cs : List Char) : List Char := cs.dropWhile isBlank

/-- The characters up to the last one that is not blank. -/
def trimEnd : List Char → List Char
  | [] => []
  | c :: cs =>
    match trimEnd cs with
    | [] => if isBlank c then [] else [c]
    | d :: ds => c :: d :: ds

/-- A field without the blanks at its two ends. -/
def trim (cs : List Char) : List Char := trimEnd (trimStart cs)

@[simp] theorem trimEnd_nil : trimEnd [] = [] := rfl

theorem trimStart_cons (c : Char) (cs : List Char) :
    trimStart (c :: cs) = if isBlank c then trimStart cs else c :: cs := by
  simp only [trimStart, List.dropWhile_cons]

theorem trimEnd_eq_nil_iff {cs : List Char} : trimEnd cs = [] ↔ ∀ c ∈ cs, isBlank c = true := by
  induction cs with
  | nil => simp
  | cons c cs ih =>
    cases h : trimEnd cs with
    | nil => by_cases hc : isBlank c = true <;> simp_all [trimEnd]
    | cons d ds => simp_all [trimEnd]

/-! ## Words -/

/-- Puts a word that has just begun in front of the finished ones, unless it is empty. -/
def closeWord (word : List Char) (words : List (List Char)) : List (List Char) :=
  if word.isEmpty then words else word :: words

/-- The word that the text begins with (empty where it begins with a blank) and the words after
it. -/
def leadingWord : List Char → List Char × List (List Char)
  | [] => ([], [])
  | c :: cs =>
    let (word, words) := leadingWord cs
    if isBlank c then ([], closeWord word words) else (c :: word, words)

/-- The maximal runs of characters that are not blank, in order. -/
def words (cs : List Char) : List (List Char) :=
  closeWord (leadingWord cs).1 (leadingWord cs).2

/-- The first word and, without the blanks between, all that follows it. -/
def firstWord (cs : List Char) : List Char × List Char :=
  let cs := trimStart cs
  (cs.takeWhile (!isBlank ·), trimStart (cs.dropWhile (!isBlank ·)))

@[simp] theorem words_nil : words [] = [] := rfl

/-- A blank in front of a text adds no word. -/
theorem words_cons_of_isBlank {c : Char} (h : isBlank c = true) (cs : List Char) :
    words (c :: cs) = words cs := by
  simp [words, leadingWord, h, closeWord]

/-- Words do not reach across a blank. -/
theorem words_append_cons_of_isBlank {c : Char} (h : isBlank c = true) (xs ys : List Char) :
    words (xs ++ c :: ys) = words xs ++ words ys := by
  have key : leadingWord (xs ++ c :: ys) =
      ((leadingWord xs).1, (leadingWord xs).2 ++ words ys) := by
    induction xs with
    | nil => simp [leadingWord, h, words]
    | cons x xs ih =>
      by_cases hx : isBlank x = true
      · by_cases hw : (leadingWord xs).1 = [] <;> simp [leadingWord, ih, hx, closeWord, hw]
      · simp [leadingWord, ih, hx]
  by_cases hw : (leadingWord xs).1 = [] <;> simp [words, key, closeWord, hw]

end Subleq.Text
