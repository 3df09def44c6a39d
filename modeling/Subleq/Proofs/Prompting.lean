import Mathlib
import Subleq.Proofs.Grammar
import Subleq.Proofs.Literals
import Subleq.Terminal

/-!
# Subleq.Proofs.Prompting — numbers asked for at the terminal

`Terminal.ask` is one request for a number, and `Terminal.request` the request after so many others,
each of which goes on with the lines that the one before has left. The replies of the terminal to a
machine are those of the requests, one by one, and so are the lines left (`replies_eq_request`).

The lines of a terminal fall into turns: some lines that are no number, and one that is. A request
takes one turn (`ask_turn`), or all lines that are left where no number comes any more (`ask_rest`).
So the requests take the turns in order, and neither lose a line nor read one twice
(`requests_in_turns`).
-/

namespace Subleq

/-! ## Lines as numbers -/

/-- What is left of a text when its end is trimmed does not end with a blank. -/
theorem Text.isBlank_of_getLast?_trimEnd {cs : List Char} {c : Char}
    (h : (trimEnd cs).getLast? = some c) : isBlank c = false := by
  induction cs with
  | nil => cases h
  | cons d ds ih =>
    unfold trimEnd at h
    cases hrest : trimEnd ds with
    | nil =>
      rw [hrest] at h
      by_cases hblank : isBlank d = true
      · simp [hblank] at h
      · have hlast : d = c := by simpa [hblank] using h
        rw [← hlast]
        exact Bool.not_eq_true _ ▸ hblank
    | cons e es =>
      rw [hrest] at h ih
      exact ih h

namespace Terminal

open Text

variable {line : String} {v : Int}

/-- The line, but for the blanks at its ends, is a decimal numeral and writes the number. -/
def Writes (line : String) (v : Int) : Prop := WritesDecimal (trim line.toList) v

/-- The line is no number. -/
def IsOther (line : String) : Prop := ∀ v, ¬Writes line v

/-- The line is a decimal numeral of more digits than are converted. -/
def IsLong (line : String) : Prop := SymbolTable.IsTooLong (String.ofList (trim line.toList))

instance (line : String) : Decidable (IsLong line) :=
  decidable_of_iff (∃ numeral ∈ Decimal.parse? (String.ofList (trim line.toList)).toList,
    4300 < numeral.digits.length) Iff.rfl

/-- What the user is told of a line that is no number. -/
def complaint (line : String) : String :=
  if trim line.toList = [] then "You have entered an empty string, please reenter."
  else s!"'{String.ofList (trim line.toList)}' is not a decimal number, please reenter."

theorem writes_iff_parse? (line : String) (v : Int) : Writes line v ↔
    ∃ numeral, Decimal.parse? (trim line.toList) = some numeral ∧ numeral.number = v := by
  apply writesDecimal_iff
  apply dropFinalNewline_eq
  intro hlast
  have hblank := isBlank_of_getLast?_trimEnd hlast
  cases hblank

/-- A number is read, and saturates. -/
theorem readLine_of_writes (h : Writes line v) (hshort : ¬IsLong line) :
    readLine (.text line) = .number (min 127 (max (-127) v)) := by
  rcases (writes_iff_parse? line v).mp h with ⟨numeral, hparse, hnumber⟩
  have hlength : numeral.digits.length ≤ digitLimit := by
    by_contra hlong
    exact hshort ⟨numeral, by simpa using hparse, Nat.lt_of_not_le hlong⟩
  have hvalue : numeral.value = .ok v := Decimal.value_eq_ok_iff.mpr ⟨hlength, hnumber⟩
  simp only [readLine, readText, hparse, hvalue, Byte.decode_signed]

/-- Anything else is refused. -/
theorem readLine_of_isOther (h : IsOther line) :
    readLine (.text line) = .refused (complaint line) := by
  have hnone : Decimal.parse? (trim line.toList) = none := by
    rw [Option.eq_none_iff_forall_ne_some]
    intro numeral hparse
    exact h numeral.number ((writes_iff_parse? line _).mpr ⟨numeral, hparse, rfl⟩)
  simp only [readLine, readText, hnone, complaint]
  split
  · rfl
  · rfl

/-! ## Requests -/

/-- What is shown while lines are refused, one after the other. -/
def refusals (prompt : String) : List String → String
  | [] => ""
  | line :: lines => prompt ++ complaint line ++ "\n" ++ refusals prompt lines

/-- Some lines that are no number, and one that is. -/
structure Turn where
  refused : List String
  line : String
  value : Int

/-- The lines of a turn in order. -/
def Turn.lines (t : Turn) : List String := t.refused ++ [t.line]

/-- These are lines that are no number, and one that writes the value. -/
structure Turn.Valid (t : Turn) : Prop where
  refused : ∀ line ∈ t.refused, IsOther line
  taken : Writes t.line t.value

/-- The request for a number after so many others: its reply, and the lines that it leaves. -/
def request (prompt : String) : Nat → List Line → Reply × List Line
  | 0, lines => ask prompt lines
  | n + 1, lines => request prompt n (ask prompt lines).2

section Requests

variable {prompt : String} {lines rest : List String}

/-- The lines as the terminal gives them. -/
def typing (lines : List String) : List Line := lines.map .text

theorem typing_append (lines lines' : List String) :
    typing (lines ++ lines') = typing lines ++ typing lines' := List.map_append

/-- Lines that are no number do not change the answer of a request. -/
theorem ask_refused (prompt : String) {refused : List String}
    (h : ∀ line ∈ refused, IsOther line) (lines : List Line) : ask prompt (typing refused ++ lines) =
      ({ (ask prompt lines).1 with
        shown := refusals prompt refused ++ (ask prompt lines).1.shown }, (ask prompt lines).2) := by
  induction refused with
  | nil => simp [typing, refusals]
  | cons line refused ih =>
    have hline := readLine_of_isOther (h line (by simp))
    have hrest := ih fun line hmem => h line (List.mem_cons_of_mem _ hmem)
    have hfirst : typing (line :: refused) = .text line :: typing refused := rfl
    rw [hfirst, List.cons_append, ask, hline]
    simp only [hrest, refusals, String.append_assoc]
    rfl

/-- A request takes a turn. -/
theorem ask_turn {t : Turn} (h : t.Valid) (hshort : ¬IsLong t.line) (rest : List Line) :
    ask prompt (typing t.lines ++ rest) =
      ({ answer := .ok (min 127 (max (-127) t.value))
         shown := refusals prompt t.refused ++ prompt }, rest) := by
  have hlast : typing [t.line] = [.text t.line] := rfl
  rw [Turn.lines, typing_append, List.append_assoc, ask_refused prompt h.refused, hlast,
    List.singleton_append, ask, readLine_of_writes h.taken hshort]

/-- A request for which there is no number left takes all lines. -/
theorem ask_rest (h : ∀ line ∈ rest, IsOther line) : ask prompt (typing rest) =
    ({ answer := .error .textEnded, shown := refusals prompt rest ++ prompt }, []) := by
  have hall := ask_refused prompt h []
  rw [List.append_nil] at hall
  rw [hall]
  rfl

/-! ## Turns -/

/-- All lines fall into turns, but for some that are no number after the last one. -/
theorem exists_turns (lines : List String) : ∃ (turns : List Turn) (rest : List String),
    lines = turns.flatMap Turn.lines ++ rest ∧ (∀ t ∈ turns, t.Valid) ∧
      ∀ line ∈ rest, IsOther line := by
  induction lines with
  | nil => exact ⟨[], [], rfl, nofun, nofun⟩
  | cons line lines ih =>
    rcases ih with ⟨turns, rest, rfl, hvalid, hother⟩
    by_cases hline : IsOther line
    · cases turns with
      | nil => exact ⟨[], line :: rest, rfl, nofun, by simpa using ⟨hline, hother⟩⟩
      | cons t turns =>
        -- the line belongs to the turn that comes next
        have ht := hvalid t (by simp)
        refine ⟨⟨line :: t.refused, t.line, t.value⟩ :: turns, rest, rfl, ?_, hother⟩
        intro t' ht'
        rcases List.mem_cons.mp ht' with rfl | ht'
        · exact ⟨by simpa using ⟨hline, ht.refused⟩, ht.taken⟩
        · exact hvalid t' (List.mem_cons_of_mem _ ht')
    · unfold IsOther at hline
      push Not at hline
      rcases hline with ⟨v, hv⟩
      refine ⟨⟨[], line, v⟩ :: turns, rest, rfl, ?_, hother⟩
      intro t ht
      rcases List.mem_cons.mp ht with rfl | ht
      · exact ⟨nofun, hv⟩
      · exact hvalid t ht

/-- So many requests take so many turns, and leave the lines after them. -/
theorem request_turns (prompt : String) {turns : List Turn} (hvalid : ∀ t ∈ turns, t.Valid)
    (hshort : ∀ t ∈ turns, ¬IsLong t.line) (k : Nat) (rest : List Line) :
    request prompt (turns.length + k) (typing (turns.flatMap Turn.lines) ++ rest) =
      request prompt k rest := by
  induction turns with
  | nil => simp [typing]
  | cons t turns ih =>
    have hrest := ih (fun t' ht' => hvalid t' (by simp [ht'])) fun t' ht' => hshort t' (by simp [ht'])
    have hlength : (t :: turns).length + k = turns.length + k + 1 := by
      simp only [List.length_cons]
      omega
    rw [hlength, request, List.flatMap_cons, typing_append, List.append_assoc,
      ask_turn (hvalid t (by simp)) (hshort t (by simp))]
    exact hrest

/-- Once there are no lines left, there are none any more. -/
theorem request_nil (prompt : String) (n : Nat) : request prompt n [] = (ended prompt, []) := by
  induction n with
  | zero => rfl
  | succ n ih => exact ih

/-! ## The replies to a machine -/

/-- The replies begin with that of the first request. Either those of the requests after it follow,
or that was the end of the lines. -/
theorem replies_cases (prompt shown : String) (lines : List Line) :
    ∃ others, replies prompt shown lines = ({ (ask prompt lines).1 with
        shown := shown ++ (ask prompt lines).1.shown }, (ask prompt lines).2) :: others ∧
      (others = replies prompt "" (ask prompt lines).2 ∨
        others = [] ∧ (ask prompt lines).2 = []) := by
  induction lines generalizing shown with
  | nil => exact ⟨[], rfl, .inr ⟨rfl, rfl⟩⟩
  | cons line lines ih =>
    rw [replies, ask]
    cases readLine line with
    | number v => exact ⟨_, rfl, .inl rfl⟩
    | failed cause => exact ⟨_, rfl, .inl rfl⟩
    | refused message =>
      rcases ih (shown ++ prompt ++ message ++ "\n") with ⟨others, hothers, hend⟩
      refine ⟨others, hothers.trans ?_, hend⟩
      simp only [String.append_assoc]
      rfl

/-- The replies are those of the requests, one by one. -/
theorem replies_eq_request (prompt : String) (n : Nat) (lines : List Line) :
    ((replies prompt "" lines)[n]?).getD (ended prompt, []) = request prompt n lines := by
  induction n generalizing lines with
  | zero =>
    rcases replies_cases prompt "" lines with ⟨others, hothers, -⟩
    rw [hothers]
    simp [request]
  | succ n ih =>
    rcases replies_cases prompt "" lines with ⟨others, hothers, rfl | ⟨rfl, hnone⟩⟩
    · rw [hothers, List.getElem?_cons_succ, ih, request]
    · rw [hothers, request, hnone, request_nil]
      rfl

/-- So are those that a machine gets, and the lines that are left are those that the last request has
left. -/
theorem input_eq_request (lines : List Line) (n : Nat) :
    (input lines).replies n = (request Terminal.prompt n lines).1 ∧
      after lines (n + 1) = (request Terminal.prompt n lines).2 := by
  rw [← replies_eq_request, input, Input.ofList_replies, List.getElem?_map, after]
  cases (replies Terminal.prompt "" lines)[n]? with
  | none => exact ⟨rfl, rfl⟩
  | some reply => exact ⟨rfl, rfl⟩

/-! ## The result -/

/-- The requests for numbers take the turns that the lines fall into, in order. What a request shows is
the prompt for each line, and for each line that is no number what is told of it. -/
structure InTurns (prompt : String) (lines : List String) (turns : List Turn)
    (rest : List String) : Prop where
  /-- Each line is in one turn, or after the last one. -/
  split : lines = turns.flatMap Turn.lines ++ rest
  valid : ∀ t ∈ turns, t.Valid
  others : ∀ line ∈ rest, IsOther line
  /-- Each turn is taken by one request, which leaves the lines after the turn. -/
  taken : ∀ n t, turns[n]? = some t → request prompt n (typing lines) =
    ({ answer := .ok (min 127 (max (-127) t.value))
       shown := refusals prompt t.refused ++ prompt },
      typing ((turns.drop (n + 1)).flatMap Turn.lines ++ rest))
  /-- The next request comes to the end of the lines. -/
  last : request prompt turns.length (typing lines) =
    ({ answer := .error .textEnded, shown := refusals prompt rest ++ prompt }, [])
  /-- All others find it. -/
  exhausted : ∀ n, turns.length < n → request prompt n (typing lines) = (ended prompt, [])

/-- Lines without a number that is too long are taken in turns. -/
theorem exists_inTurns (prompt : String) (hshort : ∀ line ∈ lines, ¬IsLong line) :
    ∃ turns rest, InTurns prompt lines turns rest := by
  rcases exists_turns lines with ⟨turns, rest, rfl, hvalid, hother⟩
  have hshort' : ∀ t ∈ turns, ¬IsLong t.line := by
    intro t ht
    apply hshort
    have hmem : t.line ∈ turns.flatMap Turn.lines :=
      List.mem_flatMap.mpr ⟨t, ht, by simp [Turn.lines]⟩
    exact List.mem_append_left _ hmem
  refine ⟨turns, rest, ?_⟩
  constructor
  case split => rfl
  case valid => exact hvalid
  case others => exact hother
  case taken =>
    intro n t ht
    obtain ⟨hn, rfl⟩ := List.getElem?_eq_some_iff.mp ht
    -- the requests before take the turns before
    have hbefore := request_turns prompt
      (fun t (ht : t ∈ turns.take n) => hvalid t (List.mem_of_mem_take ht))
      (fun t ht => hshort' t (List.mem_of_mem_take ht)) 0
      (typing ((turns.drop n).flatMap Turn.lines ++ rest))
    rw [← typing_append, ← List.append_assoc, ← List.flatMap_append, List.take_append_drop,
      List.length_take_of_le (Nat.le_of_lt hn), Nat.add_zero, List.drop_eq_getElem_cons hn,
      List.flatMap_cons, List.append_assoc, typing_append (turns[n].lines)] at hbefore
    rw [hbefore, request,
      ask_turn (hvalid _ (List.getElem_mem hn)) (hshort' _ (List.getElem_mem hn))]
  case last =>
    have hall := request_turns prompt hvalid hshort' 0 (typing rest)
    rw [← typing_append] at hall
    exact hall.trans (ask_rest hother)
  case exhausted =>
    intro n hn
    obtain ⟨k, rfl⟩ := Nat.exists_eq_add_of_lt hn
    rw [Nat.add_assoc, typing_append, request_turns prompt hvalid hshort', request, ask_rest hother]
    exact request_nil prompt k

theorem InTurns.answer_mem {turns : List Turn} (h : InTurns prompt lines turns rest) {n : Nat}
    (hanswer : (request prompt n (typing lines)).1.answer = .ok v) : -127 ≤ v ∧ v ≤ 127 := by
  rcases Nat.lt_trichotomy n turns.length with hlt | rfl | hgt
  · rw [h.taken n turns[n] (List.getElem?_eq_getElem hlt)] at hanswer
    simp only [Except.ok.injEq] at hanswer
    omega
  · rw [h.last] at hanswer
    cases hanswer
  · rw [h.exhausted n hgt] at hanswer
    cases hanswer

/-- If no number at the terminal is too long to be converted, the requests for numbers give each number
that is on a line of its own, saturated, in order, and then say that the text has ended; each request
reads the lines up to the one it takes and no others. What a machine gets is the replies of the
requests, so that it gets no number outside of `[-127, 127]`. -/
theorem requests_in_turns (prompt : String) {lines : List String}
    (hshort : ∀ line ∈ lines, ¬IsLong line) :
    (∃ turns rest, InTurns prompt lines turns rest) ∧
    (∀ n v, (request prompt n (typing lines)).1.answer = .ok v → -127 ≤ v ∧ v ≤ 127) ∧
    ∀ n, (input (typing lines)).replies n = (request Terminal.prompt n (typing lines)).1 ∧
      after (typing lines) (n + 1) = (request Terminal.prompt n (typing lines)).2 := by
  rcases exists_inTurns prompt hshort with ⟨turns, rest, h⟩
  exact ⟨⟨turns, rest, h⟩, fun n v hanswer => h.answer_mem hanswer, input_eq_request (typing lines)⟩

/-- Two turns, of one line and of three, and a line that is no number after them. -/
def session : List String := [" 300\t", "", "- 1", "-٩٩٩", "1_0"]

theorem requests_in_turns_session : (∀ line ∈ session, ¬IsLong line) ∧
    (∃ turns rest, InTurns "? " session turns rest) ∧
    ((input (typing session)).replies 0).answer = .ok 127 ∧
    after (typing session) 1 = typing ["", "- 1", "-٩٩٩", "1_0"] ∧
    ((input (typing session)).replies 1).answer = .ok (-127) ∧
    after (typing session) 2 = typing ["1_0"] ∧
    ((input (typing session)).replies 2).answer = .error .textEnded ∧
    after (typing session) 3 = [] := by
  have hshort : ∀ line ∈ session, ¬IsLong line := by decide +kernel
  rcases requests_in_turns "? " hshort with ⟨hturns, -, hsame⟩
  have h₀ : (request Terminal.prompt 0 (typing session)).1.answer = .ok 127 := by decide +kernel
  have h₁ : (request Terminal.prompt 1 (typing session)).1.answer = .ok (-127) := by decide +kernel
  have h₂ : (request Terminal.prompt 2 (typing session)).1.answer = .error .textEnded := by decide +kernel
  refine ⟨hshort, hturns, ?_, ?_, ?_, ?_, ?_, ?_⟩
  · rw [(hsame 0).1, h₀]
  · rw [(hsame 0).2]
    decide +kernel
  · rw [(hsame 1).1, h₁]
  · rw [(hsame 1).2]
    decide +kernel
  · rw [(hsame 2).1, h₂]
  · rw [(hsame 2).2]
    decide +kernel

end Requests

end Terminal

end Subleq
