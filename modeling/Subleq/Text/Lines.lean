/-!
# Subleq.Text.Lines — lines

A text is cut into lines at any of the Unicode line boundaries. A carriage return and the line
feed after it are one boundary, and a boundary at the very end starts no further line.
-/

namespace Subleq.Text

/-- The characters that end a line. -/
def isLineBreak (c : Char) : Bool :=
  let n := c.toNat
  (10 ≤ n && n ≤ 13) || (28 ≤ n && n ≤ 30) || n == 0x85 || n == 0x2028 || n == 0x2029

/-- Puts a character in front of the first line. -/
def consFirst (c : Char) : List (List Char) → List (List Char)
  | [] => [[c]]
  | line :: lines => (c :: line) :: lines

/-- The lines of a text, without their boundaries. -/
def lines : List Char → List (List Char)
  | [] => []
  | '\r' :: '\n' :: cs => [] :: lines cs
  | c :: cs => if isLineBreak c then [] :: lines cs else consFirst c (lines cs)

/-- The lines of a text, numbered from 1. -/
def numberedLines (text : String) : List (Int × String) :=
  (lines text.toList).zipIdx.map fun (line, i) => ((i : Int) + 1, String.ofList line)

/-- The text of lines that each end with a line feed. -/
def unlines (lines : List String) : String :=
  String.ofList (lines.flatMap fun line => line.toList ++ ['\n'])

/-- Lines joined by line feeds, with none after the last. -/
def joinLines (lines : List String) : String := "\n".intercalate lines

/-- A text with every carriage return, alone or before a line feed, turned into one line feed. -/
def unifyNewlines : List Char → List Char
  | [] => []
  | '\r' :: '\n' :: cs => '\n' :: unifyNewlines cs
  | c :: cs => (if c = '\r' then '\n' else c) :: unifyNewlines cs

/-- The characters before the first line feed, and those after it where there is one. -/
def cutLine : List Char → List Char × Option (List Char)
  | [] => ([], none)
  | c :: cs =>
    if c = '\n' then ([], some cs) else ((c :: (cutLine cs).1), (cutLine cs).2)

theorem lines_append_newline {line : List Char} (h : ∀ c ∈ line, isLineBreak c = false)
    (rest : List Char) : lines (line ++ '\n' :: rest) = line :: lines rest := by
  induction line with
  | nil => rfl
  | cons c cs ih =>
    have hc : isLineBreak c = false := h c (by simp)
    have hr : c ≠ '\r' := by rintro rfl; revert hc; decide
    have key : lines (c :: (cs ++ '\n' :: rest)) = consFirst c (lines (cs ++ '\n' :: rest)) := by
      rw [lines]
      · simp [hc]
      · rintro _ rfl; exact absurd rfl hr
    rw [List.cons_append, key, ih fun d hd => h d (by simp [hd])]
    rfl

/-- Lines without line boundaries in them are read back from their text. -/
theorem lines_unlines {ls : List String} (h : ∀ l ∈ ls, ∀ c ∈ l.toList, isLineBreak c = false) :
    lines (unlines ls).toList = ls.map String.toList := by
  simp only [unlines, String.toList_ofList]
  induction ls with
  | nil => rfl
  | cons l ls ih =>
    simp only [List.flatMap_cons, List.append_assoc, List.singleton_append, List.map_cons]
    rw [lines_append_newline (h l (by simp)), ih fun m hm => h m (by simp [hm])]

end Subleq.Text
