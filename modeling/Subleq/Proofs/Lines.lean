import Mathlib
import Subleq.Proofs.Grammar

/-!
# Subleq.Proofs.Lines — lines and the words on them

How a text is made of lines (`Text.HasLines`) and a line of words (`Text.Spaced`) is said here without
any cutting. Every text has lines and every line has words, and the cutting finds them: all lines but
an empty one after the last boundary (`hasLines_iff`), and exactly the words (`spaced_iff`). Text in a
new line adds lines and changes none (`lines_append`).
-/

namespace Subleq

namespace Text

/-! ## Boundaries -/

/-- Only a line feed after a carriage return is no boundary of its own. -/
theorem lines_cons {c : Char} {cs : List Char} (h : ∀ ds, c = '\r' → cs ≠ '\n' :: ds) :
    lines (c :: cs) = if isLineBreak c then [] :: lines cs else consFirst c (lines cs) := by
  rw [lines]
  intro ds hc hcs
  exact h ds hc hcs

theorem lines_eq_nil_iff {cs : List Char} : lines cs = [] ↔ cs = [] := by
  constructor
  · intro h
    unfold lines at h
    split at h
    · rfl
    · cases h
    · next c cs _ =>
      split_ifs at h
      cases hlines : lines cs <;> simp [hlines, consFirst] at h
  · rintro rfl
    rfl

/-- Text in a new line adds lines, whatever the text before it ends with. -/
theorem lines_append (cs ds : List Char) : ∃ more, lines (cs ++ '\n' :: ds) = lines cs ++ more := by
  induction cs using lines.induct with
  | case1 => exact ⟨[] :: lines ds, rfl⟩
  | case2 cs ih =>
    rcases ih with ⟨more, hmore⟩
    exact ⟨more, by simp only [List.cons_append, lines, hmore]⟩
  | case3 c cs hne hbreak ih =>
    rcases ih with ⟨more, hmore⟩
    rw [lines_cons hne, if_pos hbreak]
    by_cases hlast : c = '\r' ∧ cs = []
    · -- the carriage return at the end and the new line feed are one boundary
      rcases hlast with ⟨rfl, rfl⟩
      exact ⟨lines ds, rfl⟩
    · have hne' : ∀ es, c = '\r' → cs ++ '\n' :: ds ≠ '\n' :: es := by
        intro es hc heq
        cases cs with
        | nil => exact hlast ⟨hc, rfl⟩
        | cons d cs => exact hne cs hc (by rw [(List.cons.inj heq).1])
      refine ⟨more, ?_⟩
      rw [List.cons_append, lines_cons hne', if_pos hbreak, hmore, List.cons_append]
  | case4 c cs hne hbreak ih =>
    rcases ih with ⟨more, hmore⟩
    have hne' : ∀ cs' es, c = '\r' → cs' ≠ '\n' :: es := by
      rintro cs' es rfl
      exact absurd rfl hbreak
    rw [List.cons_append, lines_cons (hne' _), lines_cons (hne' _), if_neg hbreak, if_neg hbreak]
    cases hlines : lines cs with
    | nil =>
      -- the character stands alone on the last line
      rw [lines_eq_nil_iff.mp hlines]
      exact ⟨lines ds, rfl⟩
    | cons line ls => exact ⟨more, by rw [hmore, hlines]; rfl⟩

/-! ## Lines -/

/-- No line ends within the text. -/
def Unbroken (cs : List Char) : Prop := ∀ c ∈ cs, isLineBreak c = false

/-- The text ends a line: a character that does so, or a carriage return and a line feed. -/
def IsBoundary (cs : List Char) : Prop := cs = ['\r', '\n'] ∨ ∃ c, isLineBreak c = true ∧ cs = [c]

/-- The text consists of the lines, with a boundary after each but the last. A carriage return and a
line feed after it are never two boundaries. -/
inductive HasLines : List Char → List (List Char) → Prop where
  | last {line : List Char} (hline : Unbroken line) : HasLines line [line]
  | more {line boundary rest : List Char} {ls : List (List Char)} (hline : Unbroken line)
      (hboundary : IsBoundary boundary) (hends : boundary = ['\r'] → rest.head? ≠ some '\n')
      (hrest : HasLines rest ls) : HasLines (line ++ boundary ++ rest) (line :: ls)

theorem Unbroken.tail {c : Char} {cs : List Char} (h : Unbroken (c :: cs)) : Unbroken cs :=
  (List.forall_mem_cons.mp h).2

/-- A character that ends no line is put in front of the first one. -/
theorem lines_cons_of_not_isLineBreak {c : Char} (h : isLineBreak c = false) (cs : List Char) :
    lines (c :: cs) = consFirst c (lines cs) := by
  rw [lines_cons, if_neg (by simp [h])]
  rintro ds rfl
  cases h

theorem Unbroken.cons {c : Char} {cs : List Char} (hc : isLineBreak c = false) (h : Unbroken cs) :
    Unbroken (c :: cs) := List.forall_mem_cons.mpr ⟨hc, h⟩

theorem lines_of_unbroken {c : Char} {cs : List Char} (h : Unbroken (c :: cs)) :
    lines (c :: cs) = [c :: cs] := by
  induction cs generalizing c with
  | nil =>
    rw [lines_cons_of_not_isLineBreak (h c (by simp))]
    rfl
  | cons d ds ih =>
    rw [lines_cons_of_not_isLineBreak (h c (by simp)), ih h.tail]
    rfl

theorem lines_append_boundary {line boundary rest : List Char} (hline : Unbroken line)
    (hboundary : IsBoundary boundary) (hends : boundary = ['\r'] → rest.head? ≠ some '\n') :
    lines (line ++ boundary ++ rest) = line :: lines rest := by
  induction line with
  | nil =>
    rcases hboundary with rfl | ⟨c, hc, rfl⟩
    · rfl
    · rw [List.nil_append, List.singleton_append, lines_cons, if_pos hc]
      rintro ds rfl rfl
      exact hends rfl rfl
  | cons c cs ih =>
    simp only [List.cons_append]
    rw [lines_cons_of_not_isLineBreak (hline c (by simp)), ih hline.tail]
    rfl

/-- Nothing is left after the last boundary. -/
def endsLine (cs : List Char) : Bool := cs.getLast?.all isLineBreak

theorem endsLine_append_boundary (line : List Char) {boundary : List Char}
    (hboundary : IsBoundary boundary) (rest : List Char) :
    endsLine (line ++ boundary ++ rest) = endsLine rest := by
  unfold endsLine
  cases rest with
  | nil =>
    rcases hboundary with rfl | ⟨c, hc, rfl⟩
    · simp [isLineBreak]
    · simp [hc]
  | cons c cs => rw [List.getLast?_append_of_ne_nil _ (by simp)]

theorem endsLine_of_unbroken {c : Char} {cs : List Char} (h : Unbroken (c :: cs)) :
    endsLine (c :: cs) = false := by
  unfold endsLine
  rw [List.getLast?_eq_some_getLast (by simp)]
  exact h _ (List.getLast_mem _)

/-- Cutting finds the lines of a text, only that it leaves out an empty one after the last boundary. -/
theorem HasLines.eq_lines {cs : List Char} {ls : List (List Char)} (h : HasLines cs ls) :
    ls = if endsLine cs then lines cs ++ [[]] else lines cs := by
  induction h with
  | @last line hline =>
    cases line with
    | nil => rfl
    | cons c cs => rw [endsLine_of_unbroken hline, lines_of_unbroken hline, if_neg (by simp)]
  | @more line boundary rest ls hline hboundary hends hrest ih =>
    rw [lines_append_boundary hline hboundary hends, endsLine_append_boundary line hboundary]
    conv => lhs; rw [ih]
    split <;> rfl

/-- Every text has lines. -/
theorem exists_hasLines (cs : List Char) : ∃ ls, HasLines cs ls := by
  induction cs using lines.induct with
  | case1 => exact ⟨[[]], .last nofun⟩
  | case2 cs ih =>
    rcases ih with ⟨ls, hls⟩
    have h : HasLines ([] ++ ['\r', '\n'] ++ cs) ([] :: ls) :=
      .more nofun (Or.inl rfl) (by simp) hls
    exact ⟨_, h⟩
  | case3 c cs hne hbreak ih =>
    rcases ih with ⟨ls, hls⟩
    have h : HasLines ([] ++ [c] ++ cs) ([] :: ls) := by
      refine .more nofun (Or.inr ⟨c, hbreak, rfl⟩) ?_ hls
      intro hc hhead
      rcases List.head?_eq_some_iff.mp hhead with ⟨ds, hds⟩
      exact hne ds (List.cons.inj hc).1 hds
    exact ⟨_, h⟩
  | case4 c cs hne hbreak ih =>
    rcases ih with ⟨ls, hls⟩
    have hc : isLineBreak c = false := by simpa using hbreak
    -- the character goes to the front of the first line
    cases hls with
    | last hline => exact ⟨_, .last (hline.cons hc)⟩
    | @more line boundary rest ls hline hboundary hends hrest =>
      have h : HasLines (c :: line ++ boundary ++ rest) ((c :: line) :: ls) :=
        .more (hline.cons hc) hboundary hends hrest
      exact ⟨_, h⟩

theorem hasLines_iff {cs : List Char} {ls : List (List Char)} :
    HasLines cs ls ↔ ls = if endsLine cs then lines cs ++ [[]] else lines cs := by
  constructor
  · exact HasLines.eq_lines
  · rintro rfl
    rcases exists_hasLines cs with ⟨ls, hls⟩
    rw [← hls.eq_lines]
    exact hls

instance (cs : List Char) (ls : List (List Char)) : Decidable (HasLines cs ls) :=
  decidable_of_iff _ hasLines_iff.symm

/-! ## Numbered lines -/

/-- The lines with their numbers, beginning with the given one. -/
def numberFrom (n : Int) : List (List Char) → List (Int × String)
  | [] => []
  | line :: ls => (n, String.ofList line) :: numberFrom (n + 1) ls

theorem numberFrom_append (n : Int) (ls ls' : List (List Char)) :
    numberFrom n (ls ++ ls') = numberFrom n ls ++ numberFrom (n + ls.length) ls' := by
  induction ls generalizing n with
  | nil => simp [numberFrom]
  | cons line ls ih =>
    simp only [List.cons_append, numberFrom, ih, List.length_cons]
    push_cast
    rw [show n + 1 + (ls.length : Int) = n + (ls.length + 1) by omega]

/-- The lines of a text are numbered from 1. -/
theorem numberedLines_eq (text : String) :
    numberedLines text = numberFrom 1 (lines text.toList) := by
  have hfrom : ∀ (ls : List (List Char)) (k : Nat),
      (ls.zipIdx k).map (fun l => ((l.2 : Int) + 1, String.ofList l.1)) =
        numberFrom ((k : Int) + 1) ls := by
    intro ls
    induction ls with
    | nil => intro k; rfl
    | cons line ls ih =>
      intro k
      rw [List.zipIdx_cons, List.map_cons, ih (k + 1), numberFrom]
      push_cast
      rfl
  exact hfrom _ 0

/-- The numbers go up. -/
theorem numberFrom_pairwise (n : Int) (ls : List (List Char)) :
    (numberFrom n ls).Pairwise (·.1 < ·.1) ∧ ∀ l ∈ numberFrom n ls, n ≤ l.1 := by
  induction ls generalizing n with
  | nil => exact ⟨.nil, nofun⟩
  | cons line ls ih =>
    rcases ih (n + 1) with ⟨hsorted, hleast⟩
    constructor
    · refine List.pairwise_cons.mpr ⟨?_, hsorted⟩
      intro l hl
      have hle := hleast l hl
      simp only
      omega
    · intro l hl
      rcases List.mem_cons.mp hl with rfl | hl
      · exact Int.le_refl n
      · have hle := hleast l hl
        omega

/-! ## Words -/

/-- Characters that are no blanks, and at least one of them. -/
def IsWord (cs : List Char) : Prop := cs ≠ [] ∧ ∀ c ∈ cs, isBlank c = false

/-- The line consists of the words, with blanks between any two of them and maybe around them. -/
inductive Spaced : List (List Char) → List Char → Prop where
  | blank {bs : List Char} (hbs : Blank bs) : Spaced [] bs
  | word {bs w rest : List Char} {ws : List (List Char)} (hbs : Blank bs) (hw : IsWord w)
      (hends : ∀ c ∈ rest.head?, isBlank c = true) (hrest : Spaced ws rest) :
      Spaced (w :: ws) (bs ++ w ++ rest)

theorem words_append_of_blank {bs : List Char} (h : Blank bs) (cs : List Char) :
    words (bs ++ cs) = words cs := by
  induction bs with
  | nil => rfl
  | cons b bs ih =>
    rw [List.cons_append, words_cons_of_isBlank (h b (by simp))]
    exact ih fun c hc => h c (List.mem_cons_of_mem b hc)

theorem leadingWord_of_not_blank {w : List Char} (h : ∀ c ∈ w, isBlank c = false) :
    leadingWord w = (w, []) := by
  induction w with
  | nil => rfl
  | cons c cs ih =>
    have hc : isBlank c = false := h c (by simp)
    have hcs := ih fun d hd => h d (List.mem_cons_of_mem c hd)
    simp [leadingWord, hcs, hc]

theorem IsWord.words_eq {w : List Char} (h : IsWord w) : words w = [w] := by
  rw [words, leadingWord_of_not_blank h.2, closeWord, if_neg (by simp [h.1])]

/-- A word ends at a blank or with the line. -/
theorem words_append_of_isWord {w rest : List Char} (hw : IsWord w)
    (hends : ∀ c ∈ rest.head?, isBlank c = true) : words (w ++ rest) = w :: words rest := by
  cases rest with
  | nil => rw [List.append_nil, hw.words_eq, words_nil]
  | cons c cs =>
    have hc : isBlank c = true := hends c rfl
    rw [words_append_cons_of_isBlank hc, words_cons_of_isBlank hc, hw.words_eq]
    rfl

theorem Spaced.words_eq {ws : List (List Char)} {line : List Char} (h : Spaced ws line) :
    words line = ws := by
  induction h with
  | blank hbs => exact words_of_blank hbs
  | word hbs hw hends hrest ih =>
    rw [List.append_assoc, words_append_of_blank hbs, words_append_of_isWord hw hends, ih]

/-- Every line has words. -/
theorem exists_spaced (line : List Char) : ∃ ws, Spaced ws line := by
  induction line with
  | nil => exact ⟨[], .blank nofun⟩
  | cons c cs ih =>
    rcases ih with ⟨ws, hws⟩
    by_cases hc : isBlank c = true
    · -- a blank goes to the blanks at the start
      have hblank : ∀ bs, Blank bs → Blank (c :: bs) :=
        fun bs hbs => List.forall_mem_cons.mpr ⟨hc, hbs⟩
      cases hws with
      | blank hbs => exact ⟨[], .blank (hblank _ hbs)⟩
      | word hbs hw hends hrest => exact ⟨_, .word (hblank _ hbs) hw hends hrest⟩
    · have hword : ∀ w, (∀ d ∈ w, isBlank d = false) → IsWord (c :: w) := by
        intro w hw
        exact ⟨by simp, List.forall_mem_cons.mpr ⟨by simpa using hc, hw⟩⟩
      by_cases hends : ∀ d ∈ cs.head?, isBlank d = true
      · -- any other character is a word of its own before a blank
        have h : Spaced ([c] :: ws) ([] ++ [c] ++ cs) := .word nofun (hword [] nofun) hends hws
        exact ⟨_, h⟩
      · -- or else it goes to the word that follows
        cases hws with
        | blank hbs => exact absurd (fun d hd => hbs d (List.mem_of_head? hd)) hends
        | @word bs w rest ws hbs hw hends' hrest =>
          cases bs with
          | nil =>
            have h : Spaced ((c :: w) :: ws) ([] ++ (c :: w) ++ rest) :=
              .word nofun (hword w hw.2) hends' hrest
            exact ⟨_, h⟩
          | cons b bs => exact absurd (fun d hd => hbs d (by simp_all)) hends

/-- Cutting finds the words of a line. -/
theorem spaced_iff {ws : List (List Char)} {line : List Char} : Spaced ws line ↔ words line = ws := by
  constructor
  · exact Spaced.words_eq
  · rintro rfl
    rcases exists_spaced line with ⟨ws, hws⟩
    rw [hws.words_eq]
    exact hws

end Text

end Subleq
