import Mathlib
import Subleq.Proofs.Residues
import Subleq.Proofs.SignedBytes

/-!
# Subleq.Proofs.Port — what passes through the port

The port is read and written like any other cell, but each read takes a reply of the input and each
write hands a value to the output. `Desk` is a data store seen in this way: the stored cells, the
replies that wait, and what has passed through the port so far. What an instruction does to it is
said cell by cell (`Desk.take?`, `shows_step`), and so what passes through the port when a cell is
executed is known from its operands alone (`Cell.passages`).

An operation whose result goes to the port clears the port first, as it would clear any cell, and
adds the result to what it finds there. So it takes three replies and hands out two values, the
difference of two replies and then the result, to which the third reply has been added
(`sends_to_port`).
-/

namespace Subleq

open Layout

/-! ## Passages -/

/-- A reply that was taken from the port, or a value that was handed out there. -/
inductive Passage where
  | read (answer : Except InputFault Int)
  | written (value : Int)

/-- The passage that an event records. What watchers see does not pass through the port. -/
def Event.passage? : Event → Option Passage
  | .asked reply => some (.read reply.answer)
  | .output _ value => some (.written value)
  | .watched .. => none

/-- What has passed through the port, first to last. -/
def Memory.passages (m : Memory) : List Passage := m.history.filterMap Event.passage?

/-- What passes through the port when a cell is executed, given the values of its operands. -/
def Cell.passages (x y : Int) : Cell → List Passage
  | .load v d _ => if Memory.cellOf d = ioPort then [.written v] else []
  | .subleq a b _ =>
    (if Memory.cellOf a = ioPort then [.read (.ok x)] else []) ++
      if Memory.cellOf b = ioPort then [.read (.ok y), .written (Byte.fold (y - x))] else []

/-- How many replies are taken when a cell is executed. -/
def Cell.reads : Cell → Nat
  | .load .. => 0
  | .subleq a b _ =>
    (if Memory.cellOf a = ioPort then 1 else 0) + if Memory.cellOf b = ioPort then 1 else 0

/-- The next replies are these numbers. -/
def Input.Offers (i : Input) (values : List Int) : Prop :=
  ∀ (k : Nat) v, values[k]? = some v → (i.replies (i.taken + k)).answer = .ok v

/-- The input after a number of replies. -/
def Input.after (i : Input) (n : Nat) : Input := { i with taken := i.taken + n }

/-- The next replies without the first. -/
theorem Input.Offers.tail {i : Input} {r : Int} {values : List Int} (h : i.Offers (r :: values)) :
    (i.after 1).Offers values := by
  intro k v hv
  have hnext := h (k + 1) v hv
  have hadd : i.taken + (k + 1) = i.taken + 1 + k := by omega
  rw [hadd] at hnext
  exact hnext

/-- A script offers its numbers. -/
theorem Input.offers_ofScript (values : List Int) (rest : List (Except InputFault Int)) :
    (ofScript (values.map .ok ++ rest)).Offers values := by
  intro k v hv
  have hlt := (List.getElem?_eq_some_iff.mp hv).1
  have hanswer : ((values.map .ok ++ rest)[k]? : Option (Except InputFault Int)) = some (.ok v) := by
    rw [List.getElem?_append_left (by simpa using hlt), List.getElem?_map, hv]
    rfl
  have htaken : (ofScript (values.map .ok ++ rest)).taken + k = k := Nat.zero_add k
  rw [htaken, ofScript, ofList_replies, List.getElem?_map, hanswer]
  rfl

/-! ## Data stores and their port -/

/-- The stored cells, the input, and what has passed through the port. -/
structure Desk where
  cells : Store
  input : Input
  passages : List Passage

namespace Desk

/-- What is read at an address, if it can be read. -/
def look (d : Desk) (a : Int) : Option Int :=
  if Memory.cellOf a = ioPort then d.input.next.answer.toOption else d.cells (Memory.cellOf a)

/-- After an address has been read. -/
def read (d : Desk) (a : Int) : Desk :=
  if Memory.cellOf a = ioPort then
    { d with input := d.input.advance, passages := d.passages ++ [.read d.input.next.answer] }
  else d

/-- After a value has been written to an address. -/
def write (d : Desk) (a v : Int) : Desk :=
  if Memory.cellOf a = ioPort then { d with passages := d.passages ++ [.written v] }
  else { d with cells := Function.update d.cells (Memory.cellOf a) (some v) }

/-- After a subtraction, if both operands can be read. -/
def take? (d : Desk) (a b : Int) : Option Desk :=
  (d.look a).bind fun x => ((d.read a).look b).map fun y =>
    ((d.read a).read b).write b (Byte.fold (y - x))

/-- After a row of subtractions. -/
def takes? (d : Desk) : List (Int × Int) → Option Desk
  | [] => some d
  | (a, b) :: rest => (d.take? a b).bind fun d' => d'.takes? rest

/-- After a cell that is executed. -/
def execute? (d : Desk) : Cell → Option Desk
  | .load v a _ => some (d.write a v)
  | .subleq a b _ => d.take? a b

variable {d d' : Desk} {a b x y : Int}

/-- A subtraction of what can be read. -/
theorem take?_eq_some_iff : d.take? a b = some d' ↔ ∃ x y, d.look a = some x ∧
    (d.read a).look b = some y ∧ ((d.read a).read b).write b (Byte.fold (y - x)) = d' := by
  simp [take?, Option.bind_eq_some_iff]

/-! ### Passages of a cell -/

/-- Reading an address takes a reply if it names the port. -/
theorem read_of_look (h : d.look a = some x) :
    (d.read a).cells = d.cells ∧
    (d.read a).input = d.input.after (if Memory.cellOf a = ioPort then 1 else 0) ∧
    (d.read a).passages =
      d.passages ++ if Memory.cellOf a = ioPort then [.read (.ok x)] else [] := by
  by_cases hport : Memory.cellOf a = ioPort
  · have hanswer : d.input.next.answer = .ok x := by
      simp only [look, if_pos hport] at h
      cases hnext : d.input.next.answer with
      | error cause => simp [hnext, Except.toOption] at h
      | ok v => simpa [hnext, Except.toOption] using h
    simp [read, hport, hanswer, Input.after, Input.advance]
  · simp [read, hport, Input.after]

/-- Writing to an address hands out the value if it names the port; nothing is stored there. -/
theorem write_frame (d : Desk) (a v : Int) :
    (d.write a v).cells ioPort = d.cells ioPort ∧ (d.write a v).input = d.input ∧
    (d.write a v).passages =
      d.passages ++ if Memory.cellOf a = ioPort then [.written v] else [] := by
  by_cases hport : Memory.cellOf a = ioPort
  · simp [write, hport]
  · simp [write, hport, Function.update_of_ne (Ne.symm hport)]

/-- These are the operands of a cell, the first of them read first. -/
def Operands (d : Desk) (x y : Int) : Cell → Prop
  | .load .. => True
  | .subleq a b _ => d.look a = some x ∧ (d.read a).look b = some y

/-- What passes through the port when a cell is executed. -/
theorem passages_execute {c : Cell} (h : d.execute? c = some d') :
    (∃ x y, d.Operands x y c ∧ d'.passages = d.passages ++ c.passages x y) ∧
      d'.input = d.input.after c.reads ∧ d'.cells ioPort = d.cells ioPort := by
  cases c with
  | load v a next =>
    cases h
    obtain ⟨hcells, hinput, hpassages⟩ := d.write_frame a v
    exact ⟨⟨0, 0, trivial, hpassages⟩, hinput, hcells⟩
  | subleq a b target =>
    obtain ⟨x, y, hx, hy, rfl⟩ := take?_eq_some_iff.mp h
    obtain ⟨hcells, hinput, hpassages⟩ := read_of_look hx
    obtain ⟨hcells₁, hinput₁, hpassages₁⟩ := read_of_look hy
    obtain ⟨hcells₂, hinput₂, hpassages₂⟩ :=
      ((d.read a).read b).write_frame b (Byte.fold (y - x))
    refine ⟨⟨x, y, ⟨hx, hy⟩, ?_⟩, ?_, ?_⟩
    · rw [hpassages₂, hpassages₁, hpassages]
      by_cases hb : Memory.cellOf b = ioPort <;> simp [Cell.passages, hb]
    · rw [hinput₂, hinput₁, hinput]
      simp only [Input.after, Cell.reads, Nat.add_assoc]
    · rw [hcells₂, hcells₁, hcells]

/-! ### Rows of subtractions -/

theorem takes?_append (d : Desk) (row row' : List (Int × Int)) :
    d.takes? (row ++ row') = (d.takes? row).bind fun d' => d'.takes? row' := by
  induction row generalizing d with
  | nil => rfl
  | cons pair row ih => simp [takes?, ih, Option.bind_assoc]

/-- A stored cell is read where it is. -/
theorem read_stored (h : d.cells.Stores a) :
    Memory.cellOf a = a ∧ d.look a = d.cells a ∧ d.read a = d := by
  have hlt := h.2.1
  simp only [ioPort] at hlt
  have hcell : Memory.cellOf a = a := Memory.cellOf_eq h.1 (by omega)
  have hport : a ≠ ioPort := by
    simp only [ioPort]
    omega
  simp [look, read, hcell, hport]

/-- A subtraction of stored cells stays away from the port. -/
theorem take?_stored (ha : d.cells.Stores a) (hb : d.cells.Stores b) :
    d.take? a b = some { d with cells := d.cells.take a b } := by
  obtain ⟨x, hx⟩ := Option.isSome_iff_exists.mp ha.2.2
  obtain ⟨y, hy⟩ := Option.isSome_iff_exists.mp hb.2.2
  obtain ⟨-, hlook, hread⟩ := read_stored ha
  obtain ⟨hcell, hlook', hread'⟩ := read_stored hb
  have hport : Memory.cellOf b ≠ ioPort := by
    rw [hcell]
    exact Int.ne_of_lt hb.2.1
  refine take?_eq_some_iff.mpr ⟨x, y, hlook.trans hx, ?_, ?_⟩
  · rw [hread, hlook', hy]
  · rw [hread, hread', Store.take_eq hx hy, write, if_neg hport, hcell]

theorem takes?_stored {row : List (Int × Int)}
    (h : ∀ pair ∈ row, d.cells.Stores pair.1 ∧ d.cells.Stores pair.2) :
    d.takes? row = some { d with cells := d.cells.takes row } := by
  induction row generalizing d with
  | nil => rfl
  | cons pair row ih =>
    have hfirst := h pair (List.mem_cons_self ..)
    have hrest : ∀ q ∈ row, (d.cells.take pair.1 pair.2).Stores q.1 ∧
        (d.cells.take pair.1 pair.2).Stores q.2 := by
      intro q hq
      have hstores := h q (List.mem_cons_of_mem pair hq)
      exact ⟨hstores.1.takes [pair], hstores.2.takes [pair]⟩
    rw [takes?, take?_stored hfirst.1 hfirst.2]
    exact ih (d := { d with cells := d.cells.take pair.1 pair.2 }) hrest

section Replies

variable {r r₁ r₂ : Int} {values : List Int}

/-- Looking at the port shows the next reply. -/
theorem look_port (h : d.input.Offers (r :: values)) : d.look ioPort = some r := by
  have hanswer : d.input.next.answer = .ok r := h 0 r rfl
  simp [look, Memory.cellOf, ioPort, hanswer, Except.toOption]

theorem read_port (h : d.input.Offers (r :: values)) : d.read ioPort =
    { d with input := d.input.after 1, passages := d.passages ++ [.read (.ok r)] } := by
  have hanswer : d.input.next.answer = .ok r := h 0 r rfl
  simp [read, Memory.cellOf, ioPort, hanswer, Input.advance, Input.after]

/-- Clearing the port takes two replies and hands out their difference. -/
theorem take?_clear (h : d.input.Offers (r₁ :: r₂ :: values)) :
    d.take? ioPort ioPort = some { d with
      input := d.input.after 2
      passages := d.passages ++
        [.read (.ok r₁), .read (.ok r₂), .written (Byte.fold (r₂ - r₁))] } := by
  have hfirst := read_port h
  have hoffers : (d.read ioPort).input.Offers (r₂ :: values) := by
    rw [hfirst]
    exact h.tail
  refine take?_eq_some_iff.mpr ⟨r₁, r₂, look_port h, look_port hoffers, ?_⟩
  rw [read_port hoffers, hfirst]
  simp [write, Memory.cellOf, ioPort, Input.after]

/-- Subtracting a cell from the port takes one reply and hands out the difference. -/
theorem take?_send (ha : d.cells.Stores a) (hx : d.cells a = some x)
    (h : d.input.Offers (r :: values)) :
    d.take? a ioPort = some { d with
      input := d.input.after 1
      passages := d.passages ++ [.read (.ok r), .written (Byte.fold (r - x))] } := by
  obtain ⟨-, hlook, hread⟩ := read_stored ha
  refine take?_eq_some_iff.mpr ⟨x, r, hlook.trans hx, ?_, ?_⟩
  · rw [hread]
    exact look_port h
  · rw [hread, read_port h]
    simp [write, Memory.cellOf, ioPort]

end Replies

/-! ### Results that are sent -/

/-- A result has been sent to the port. The port has been cleared first, for which the first two
replies were taken; with the third one the result was handed out. The zero cell holds zero, nothing
has been stored at the port, and no cell has changed but for the scratch cells. -/
structure Sends (d d' : Desk) (r₁ r₂ r₃ total : Int) : Prop where
  input : d'.input = d.input.after 3
  passages : ∃ v w, Byte.Represents v total ∧
    d'.passages = d.passages ++
      [.read (.ok r₁), .read (.ok r₂), .written (Byte.fold (r₂ - r₁)), .read (.ok r₃), .written w] ∧
    w ≡ r₃ + v [ZMOD 255] ∧ (r₃ = 0 → w = v)
  zero : d'.cells zero = some 0
  port : d'.cells ioPort = d.cells ioPort
  frame : ∀ k, ¬Store.IsScratch k → d'.cells k = d.cells k

/-- A row that clears the port and in the end subtracts a cell from it; otherwise it stays away from
the port. -/
theorem takes?_send (before middle rest : List (Int × Int)) {s z r₁ r₂ r₃ : Int}
    (hoffers : d.input.Offers [r₁, r₂, r₃])
    (hstores : ∀ pair ∈ before ++ middle ++ (s, s) :: rest,
      d.cells.Stores pair.1 ∧ d.cells.Stores pair.2)
    (hz : d.cells.takes (before ++ middle) s = some z) :
    d.takes? (before ++ (ioPort, ioPort) :: middle ++ (s, ioPort) :: rest) = some
      { cells := d.cells.takes (before ++ middle ++ rest)
        input := d.input.after 3
        passages := d.passages ++ [.read (.ok r₁), .read (.ok r₂), .written (Byte.fold (r₂ - r₁)),
          .read (.ok r₃), .written (Byte.fold (r₃ - z))] } := by
  have hbefore : ∀ pair ∈ before, d.cells.Stores pair.1 ∧ d.cells.Stores pair.2 := by
    intro pair hpair
    exact hstores pair (by simp [hpair])
  have hmiddle : ∀ pair ∈ middle, (d.cells.takes before).Stores pair.1 ∧
      (d.cells.takes before).Stores pair.2 := by
    intro pair hpair
    have hpair' := hstores pair (by simp [hpair])
    exact ⟨hpair'.1.takes before, hpair'.2.takes before⟩
  have hs := ((hstores (s, s) (by simp)).1.takes before).takes middle
  have hrest : ∀ pair ∈ rest, ((d.cells.takes before).takes middle).Stores pair.1 ∧
      ((d.cells.takes before).takes middle).Stores pair.2 := by
    intro pair hpair
    have hpair' := hstores pair (by simp [hpair])
    exact ⟨(hpair'.1.takes before).takes middle, (hpair'.2.takes before).takes middle⟩
  rw [Store.takes_append] at hz
  have hclear := take?_clear (d := { d with cells := d.cells.takes before }) hoffers
  rw [takes?_append, takes?_append, takes?_stored hbefore, Option.bind_some, takes?, hclear,
    Option.bind_some, takes?_stored hmiddle, Option.bind_some, takes?,
    take?_send hs hz hoffers.tail.tail, Option.bind_some, takes?_stored hrest]
  simp [Store.takes_append, Input.after]

/-- What is sent is the negative of the cell that is subtracted from the port. -/
theorem sends_takes (before middle rest : List (Int × Int)) {s z r₁ r₂ r₃ total : Int}
    (hready : d.cells.Ready) (hoffers : d.input.Offers [r₁, r₂, r₃])
    (hstores : ∀ pair ∈ before ++ middle ++ (s, s) :: rest,
      d.cells.Stores pair.1 ∧ d.cells.Stores pair.2)
    (hwrites : ∀ pair ∈ before ++ middle ++ rest, pair.2 = Layout.zero ∨ Store.IsScratch pair.2)
    (hz : d.cells.takes (before ++ middle) s = some z)
    (hzero : d.cells.takes (before ++ middle ++ rest) Layout.zero = some 0)
    (htotal : Byte.fold (-z) = Byte.residue total) :
    ∃ d', d.takes? (before ++ (ioPort, ioPort) :: middle ++ (s, ioPort) :: rest) = some d' ∧
      d.Sends d' r₁ r₂ r₃ total := by
  have hgives := hready.gives_takes hzero hzero (fun pair hpair => .inr (hwrites pair hpair))
  refine ⟨_, takes?_send before middle rest hoffers hstores hz, ?_⟩
  constructor
  case input => rfl
  case passages =>
    refine ⟨Byte.residue total, Byte.fold (r₃ - z), Byte.represents_iff.mpr rfl, rfl, ?_, ?_⟩
    · -- the third reply is folded together with the result
      have hresult := Byte.fold_modEq (-z)
      rw [htotal] at hresult
      rw [Int.sub_eq_add_neg]
      exact (Byte.fold_modEq _).trans (hresult.symm.add_left r₃)
    · rintro rfl
      rw [Int.zero_sub, htotal]
  case zero => exact hzero
  case port => exact hgives.frame ioPort (by decide) (by decide)
  case frame =>
    intro k hk
    by_cases hkz : k = Layout.zero
    · rw [hkz]
      exact hzero.trans hready.zero.symm
    · exact hgives.frame k hkz hk

end Desk

namespace Memory

variable {m m' : Memory} {d : Desk}

/-- The data store is wired, and this is what is seen of it. -/
structure Shows (m : Memory) (d : Desk) : Prop where
  wired : m.Wired
  cells : ∀ a, m.cells[a]? = d.cells a
  input : m.input = some d.input
  passages : m.passages = d.passages

/-- Later events come after earlier ones. -/
theorem passages_append {new : List Event} (h : m'.events = new ++ m.events) :
    m'.passages = m.passages ++ new.reverse.filterMap Event.passage? := by
  simp [passages, history, h]

/-- Watchers do not see what passes through the port. -/
theorem passages_sightings (m : Memory) (cell new : Int) :
    (m.sightings cell new).reverse.filterMap Event.passage? = [] := by
  simp [sightings, Event.passage?]

/-- An address can be read exactly if it can be looked at, and reading has no other effect. -/
theorem Shows.read (h : m.Shows d) (a : Int) :
    (m.read a).2.Shows (d.read a) ∧ ∀ x, (m.read a).1 = .ok x ↔ d.look a = some x := by
  by_cases hport : cellOf a = Layout.ioPort
  · -- the port: its input is asked
    have hread : m.read a = m.ask d.input := by
      simp only [Memory.read, h.input, h.wired.port, if_pos hport]
    have hnew : (m.ask d.input).2.events = [.asked d.input.next] ++ m.events := rfl
    rw [hread]
    constructor
    · simp only [Desk.read, if_pos hport]
      constructor
      case wired =>
        rw [← hread]
        exact h.wired.read a
      case cells => exact h.cells
      case input => rfl
      case passages =>
        rw [passages_append hnew, h.passages]
        rfl
    · intro x
      simp only [Desk.look, if_pos hport, ask]
      cases d.input.next.answer <;> simp [Except.mapError, Except.toOption]
  · -- a stored cell
    have hread : m.read a = m.readCell (cellOf a) := by
      simp only [Memory.read, h.input, h.wired.port, if_neg hport]
    have hsame : (m.readCell (cellOf a)).2 = m := by
      unfold readCell
      split <;> rfl
    rw [hread, hsame]
    constructor
    · simp only [Desk.read, if_neg hport]
      exact h
    · intro x
      simp only [Desk.look, if_neg hport, ← h.cells]
      unfold readCell
      split
      · next v hv => simp [hv]
      · next hnone => simp [hnone]

/-- What is written goes to the output or into a cell. -/
theorem Shows.write (h : m.Shows d) (a v : Int) : (m.write a v).Shows (d.write a v) := by
  obtain ⟨name, hname⟩ := Option.isSome_iff_exists.mp h.wired.output
  have hwired := h.wired.write a v
  by_cases hport : cellOf a = Layout.ioPort
  · -- one passage more, and no cell is touched
    have hwrite : m.write a v = { m with events := .output name v :: m.events } := by
      simp only [Memory.write, hname, h.wired.port, if_pos hport]
    have hnew : (m.write a v).events = [.output name v] ++ m.events := by
      rw [hwrite]
      rfl
    simp only [Desk.write, if_pos hport]
    constructor
    case wired => exact hwired
    case cells =>
      rw [hwrite]
      exact h.cells
    case input =>
      rw [hwrite]
      exact h.input
    case passages =>
      rw [passages_append hnew, h.passages]
      rfl
  · -- what watchers see is no passage, so only the cell changes
    have hwrite : m.write a v = m.writeCell (cellOf a) v := by
      simp only [Memory.write, hname, h.wired.port, if_neg hport]
    have hnew : (m.write a v).events = m.sightings (cellOf a) v ++ m.events := by
      rw [hwrite]
      rfl
    simp only [Desk.write, if_neg hport]
    constructor
    case wired => exact hwired
    case cells =>
      intro k
      rw [get?_write h.wired, h.cells]
      simp [Function.update_apply, hport]
    case input =>
      rw [hwrite]
      exact h.input
    case passages =>
      rw [passages_append hnew, passages_sightings, List.append_nil, h.passages]

/-- Both operands of a subtraction are read, one after the other. -/
theorem Shows.reads {m₁ m₂ : Memory} {a b x y : Int} (h : m.Shows d)
    (ha : m.read a = (.ok x, m₁)) (hb : m₁.read b = (.ok y, m₂)) :
    d.look a = some x ∧ (d.read a).look b = some y ∧ m₂.Shows ((d.read a).read b) := by
  have hfirst := h.read a
  rw [ha] at hfirst
  have hsecond := hfirst.1.read b
  rw [hb] at hsecond
  exact ⟨(hfirst.2 x).mp rfl, (hsecond.2 y).mp rfl, hsecond.1⟩

end Memory

/-! ## Steps and rows of steps -/

namespace Machine

variable {m : Machine} {d d' : Desk} {a b target x y : Int}

/-- A subtraction whose operands can be looked at is executed. -/
theorem step_take (h : m.memory.Shows d) (hpc : m.pc < maxPc)
    (hcell : m.fetch m.pc = .subleq a b target) (hne : Cell.subleq a b target ≠ .empty)
    (htake : d.take? a b = some d') :
    m.step.1 = goesOn m.step.2.pc ∧ m.step.2.memory.Shows d' ∧
      (m.step.2.pc = target ∨ m.step.2.pc = m.pc + 1) := by
  obtain ⟨x, y, hx, hy, rfl⟩ := Desk.take?_eq_some_iff.mp htake
  obtain ⟨hshown, hlook⟩ := h.read a
  have ha : m.memory.read a = (.ok x, (m.memory.read a).2) := Prod.ext ((hlook x).mpr hx) rfl
  obtain ⟨hshown', hlook'⟩ := hshown.read b
  have hb : (m.memory.read a).2.read b = (.ok y, ((m.memory.read a).2.read b).2) :=
    Prod.ext ((hlook' y).mpr hy) rfl
  obtain ⟨hsub, hgoes⟩ := subtracts_of_reads hpc hcell hne ha hb
  refine ⟨hgoes, ?_, ?_⟩
  · rw [hsub.written]
    exact hshown'.write b _
  · rw [hsub.branch]
    split
    · exact .inl rfl
    · exact .inr rfl

/-- Every cell that is executed does to what is seen of the data store what cells of its kind do. -/
theorem shows_step {c : Cell} (h : m.memory.Shows d) (hpc : m.pc < maxPc)
    (hcell : m.fetch m.pc = c) (hne : c ≠ .empty)
    (hexecuted : ∀ cause, m.step.1 ≠ .faulted cause) :
    ∃ d', d.execute? c = some d' ∧ m.step.2.memory.Shows d' := by
  cases c with
  | load v a next =>
    refine ⟨d.write a v, rfl, ?_⟩
    rw [(step_load hpc hcell).2.2]
    exact h.write a v
  | subleq a b target =>
    rcases subtracts_or_faults hpc hcell hne with ⟨x, y, m₁, m₂, hsub⟩ | ⟨cause, hfault, -⟩
    · obtain ⟨hx, hy, hshown⟩ := h.reads hsub.subtrahend hsub.minuend
      refine ⟨_, Desk.take?_eq_some_iff.mpr ⟨x, y, hx, hy, rfl⟩, ?_⟩
      rw [hsub.written]
      exact hshown.write b _
    · exact absurd hfault (hexecuted cause)

/-- A row of subtractions, each of which goes on at the next cell, is executed one by one. -/
theorem runs_straight {row : List (Int × Int)} (hcells : m.program.Holds m.pc (straight m.pc row))
    (hstart : 0 ≤ m.pc) (hroom : m.pc + row.length < maxPc) (h : m.memory.Shows d)
    (htakes : d.takes? row = some d') :
    ∃ m', Runs row.length m m' ∧ m'.memory.Shows d' ∧
      ∀ j : Nat, j ≤ row.length → (m.after j).pc = m.pc + j := by
  -- along the row, whose first step shows the data store that the others begin with
  induction row generalizing m d with
  | nil =>
    cases htakes
    refine ⟨m, .refl m, h, ?_⟩
    intro j hj
    obtain rfl : j = 0 := Nat.le_zero.mp hj
    simp
  | cons pair row ih =>
    simp only [List.length_cons] at hroom ⊢
    push_cast at hroom
    -- the first of them
    obtain ⟨d₁, htake, hrest⟩ := Option.bind_eq_some_iff.mp htakes
    obtain ⟨hcell, hothers⟩ := Program.Holds.cons hcells
    obtain ⟨hgoes, hshown, hpc⟩ := step_take h (by omega) hcell (ne_empty_of_next hstart) htake
    rw [or_self] at hpc
    have hrunning : m.step.1 = .running := by
      rw [hgoes, hpc]
      exact if_neg (by omega)
    -- the others, from the next cell on
    have hcells₁ : m.step.2.program.Holds m.step.2.pc (straight m.step.2.pc row) := by
      rw [program_step, hpc]
      exact hothers
    obtain ⟨m', hruns, hshown', hplaces⟩ := ih hcells₁ (by omega) (by omega) hshown hrest
    refine ⟨m', .step (Prod.ext hrunning rfl) hruns, hshown', ?_⟩
    intro j hj
    cases j with
    | zero => simp
    | succ j =>
      have hplace := hplaces j (by omega)
      rw [hpc] at hplace
      rw [Nat.add_comm, after_add, after_succ, after_zero, hplace]
      push_cast
      omega

/-- Where the cells of an operation are such a row, the machine executes them. -/
theorem executes_row {op : Operation Int} {row : List (Int × Int)}
    (hblock : m.program.Holds m.pc ((Code.operation op).cells m.pc))
    (hrow : (Code.operation op).cells m.pc = straight m.pc row) (hstart : 0 ≤ m.pc)
    (hend : m.pc + row.length ≤ 255) (h : m.memory.Shows d) (htakes : d.takes? row = some d') :
    ∃ m', m.Executes row.length m' (m.pc + row.length) ∧ m'.memory.Shows d' := by
  have hsize : (Code.operation op).size = row.length := by
    rw [← Code.length_cells _ m.pc, hrow, length_straight]
  have hpos := (Code.operation op).size_pos
  obtain ⟨m', hruns, hshown, hplaces⟩ := runs_straight (hrow ▸ hblock) hstart
    (by simp only [maxPc]; omega) h htakes
  have hpc : m'.pc = m.pc + row.length := by
    rw [hruns.eq_after]
    exact hplaces _ (Nat.le_refl _)
  have hinside : ∀ j m₁, 0 < j → j < row.length → Runs j m m₁ →
      m.pc < m₁.pc ∧ m₁.pc < m.pc + row.length := by
    intro j m₁ hj hlt hj'
    have hplace := hplaces j (by omega)
    rw [hj'.eq_after, hplace]
    omega
  have hcells : ∀ k, m.pc ≤ k → k < m.pc + row.length → m.program.fetch k ≠ .empty := by
    intro k hk hk'
    exact ne_empty_of_holds hstart hblock hk (by omega)
  exact ⟨m', (hruns.exits hpc hinside hcells (by omega)).executes, hshown⟩

/-! ## Results that are sent -/

/-- What is seen of a machine's data store, given the input that it has. -/
def desk (m : Machine) (i : Input) : Desk := ⟨m.store, i, m.memory.passages⟩

theorem shows_desk {i : Input} (hwired : m.memory.Wired) (hi : m.memory.input = some i) :
    m.memory.Shows (m.desk i) := ⟨hwired, fun _ => rfl, hi, rfl⟩

section Results

variable {r₁ r₂ r₃ : Int}

-- Values of cells after a row of subtractions, by going through the row.
attribute [local simp] Store.takes Store.take Store.val Function.update_apply zero negOne tempA
  tempB tempC

theorem takes_move (hready : d.cells.Ready) (ha : d.cells.Operand a x)
    (hoffers : d.input.Offers [r₁, r₂, r₃]) :
    ∃ d', d.takes? [(ioPort, ioPort), (a, zero), (zero, ioPort), (zero, zero)] = some d' ∧
      d.Sends d' r₁ r₂ r₃ x := by
  have hz : d.cells 250 = some 0 := hready.zero
  refine Desk.sends_takes [] [(a, zero)] [(zero, zero)] (z := Byte.fold (-x)) hready hoffers
    ?_ ?_ ?_ ?_ ?_
  · simp only [List.nil_append, List.cons_append, List.forall_mem_cons, ha.stores,
      hready.stores (.inl rfl)]
    simp
  · simp
  · simp [ha.eq, hz]
  · simp
  · rw [Byte.fold_neg_twice ha.min ha.max]
    have hmin := ha.min
    have hmax := ha.max
    unfold Byte.copied Byte.residue
    split <;> omega

theorem takes_add (hready : d.cells.Ready) (ha : d.cells.Operand a x) (hb : d.cells.Operand b y)
    (hoffers : d.input.Offers [r₁, r₂, r₃]) :
    ∃ d', d.takes? [(a, zero), (b, zero), (ioPort, ioPort), (zero, ioPort), (zero, zero)] = some d' ∧
      d.Sends d' r₁ r₂ r₃ (x + y) := by
  have hz : d.cells 250 = some 0 := hready.zero
  refine Desk.sends_takes [(a, zero), (b, zero)] [] [(zero, zero)]
    (z := Byte.fold (Byte.fold (-x) - y)) hready hoffers ?_ ?_ ?_ ?_ ?_
  · simp only [List.nil_append, List.cons_append, List.append_nil, List.forall_mem_cons, ha.stores,
      hb.stores, hready.stores (.inl rfl)]
    simp
  · simp
  · simp [hb.ne, ha.eq, hb.eq, hz]
  · simp
  · exact Byte.fold_sum ha.min ha.max hb.min hb.max

theorem takes_sub (hready : d.cells.Ready) (ha : d.cells.Operand a x) (hb : d.cells.Operand b y)
    (hoffers : d.input.Offers [r₁, r₂, r₃]) :
    ∃ d', d.takes? [(tempA, tempA), (tempB, tempB), (a, tempA), (b, tempB), (tempB, tempA),
        (ioPort, ioPort), (tempB, tempB), (tempA, tempB), (tempB, ioPort)] = some d' ∧
      d.Sends d' r₁ r₂ r₃ (y - x) := by
  have hA := hready.stores (a := tempA) (.inr (by simp [Store.IsScratch]))
  have hB := hready.stores (a := tempB) (.inr (by simp [Store.IsScratch]))
  refine Desk.sends_takes [(tempA, tempA), (tempB, tempB), (a, tempA), (b, tempB), (tempB, tempA)]
    [(tempB, tempB), (tempA, tempB)] []
    (z := Byte.fold (-Byte.fold (Byte.fold (-x) - Byte.fold (-y)))) hready hoffers ?_ ?_ ?_ ?_ ?_
  · simp only [List.cons_append, List.nil_append, List.forall_mem_cons, ha.stores, hb.stores, hA, hB]
    simp
  · simp [Store.IsScratch]
  · simp [ha.ne, hb.ne, ha.eq, hb.eq]
  · simpa using hready.zero
  · exact Byte.fold_difference ha.min ha.max hb.min hb.max

end Results

/-- A machine at the first cell of a move, an addition or a subtraction whose result goes to the port
executes its instructions and sends the result, for three replies. Every cell that a machine executes
takes a reply for each operand of a subtraction that names the port, and hands out a value exactly if
its destination does. -/
theorem sends_to_port (h : m.memory.Shows d) :
    (∀ {a b x y r₁ r₂ r₃ : Int}, 0 ≤ m.pc → d.cells.Ready → d.cells.Operand a x →
      d.cells.Operand b y → d.input.Offers [r₁, r₂, r₃] →
      (m.program.Holds m.pc ((Code.operation (.move a ioPort)).cells m.pc) → m.pc + 4 ≤ 255 →
        ∃ m' d', m.Executes 4 m' (m.pc + 4) ∧ m'.memory.Shows d' ∧ d.Sends d' r₁ r₂ r₃ x) ∧
      (m.program.Holds m.pc ((Code.operation (.arith .add a b ioPort)).cells m.pc) →
        m.pc + 5 ≤ 255 →
        ∃ m' d', m.Executes 5 m' (m.pc + 5) ∧ m'.memory.Shows d' ∧ d.Sends d' r₁ r₂ r₃ (x + y)) ∧
      (m.program.Holds m.pc ((Code.operation (.arith .sub a b ioPort)).cells m.pc) →
        m.pc + 9 ≤ 255 →
        ∃ m' d', m.Executes 9 m' (m.pc + 9) ∧ m'.memory.Shows d' ∧ d.Sends d' r₁ r₂ r₃ (y - x))) ∧
    ∀ c, m.pc < maxPc → m.fetch m.pc = c → c ≠ .empty → (∀ cause, m.step.1 ≠ .faulted cause) →
      ∃ d' x y, m.step.2.memory.Shows d' ∧ d.Operands x y c ∧
        d'.passages = d.passages ++ c.passages x y ∧ d'.input = d.input.after c.reads ∧
        d'.cells ioPort = d.cells ioPort := by
  constructor
  · intro a b x y r₁ r₂ r₃ hstart hready ha hb hoffers
    refine ⟨fun hblock hend => ?_, fun hblock hend => ?_, fun hblock hend => ?_⟩
    · obtain ⟨d', htakes, hsends⟩ := takes_move hready ha hoffers
      obtain ⟨m', hexecutes, hshown⟩ :=
        executes_row hblock (Code.cells_move ..) hstart hend h htakes
      exact ⟨m', d', hexecutes, hshown, hsends⟩
    · obtain ⟨d', htakes, hsends⟩ := takes_add hready ha hb hoffers
      obtain ⟨m', hexecutes, hshown⟩ :=
        executes_row hblock (Code.cells_add ..) hstart hend h htakes
      exact ⟨m', d', hexecutes, hshown, hsends⟩
    · obtain ⟨d', htakes, hsends⟩ := takes_sub hready ha hb hoffers
      obtain ⟨m', hexecutes, hshown⟩ :=
        executes_row hblock (Code.cells_sub ..) hstart hend h htakes
      exact ⟨m', d', hexecutes, hshown, hsends⟩
  · intro c hpc hcell hne hexecuted
    obtain ⟨d', hexecute, hshown⟩ := shows_step h hpc hcell hne hexecuted
    obtain ⟨⟨x, y, hoperands, hpassages⟩, hinput, hport⟩ := Desk.passages_execute hexecute
    exact ⟨d', x, y, hshown, hoperands, hpassages, hinput, hport⟩

/-- Three replies, the last of which leaves a result as it is. -/
def offering : Input := Input.ofScript [.ok 3, .ok (-128), .ok 0]

/-- The least signed byte is moved to the port, at the end of the program store. -/
def sending : Machine :=
  let m := placed 251 ((Code.operation (.move 249 ioPort)).cells 251) ([(249, -128)] ++ reserved)
  { m with memory.input := some offering }

theorem sends_to_port_sending :
    (sending.memory.Shows (sending.desk offering) ∧ (sending.desk offering).cells.Ready ∧
      (sending.desk offering).cells.Operand 249 (-128) ∧ offering.Offers [3, -128, 0]) ∧
    (∃ m' d', sending.Executes 4 m' 255 ∧ m'.memory.Shows d' ∧
      (sending.desk offering).Sends d' 3 (-128) 0 (-128)) ∧
    ∃ d' x y, sending.step.2.memory.Shows d' ∧
      (sending.desk offering).Operands x y (.subleq 255 255 252) ∧
      d'.passages = [.read (.ok x), .read (.ok y), .written (Byte.fold (y - x))] ∧
      d'.input = offering.after 2 ∧ d'.cells ioPort = none := by
  have hshows : sending.memory.Shows (sending.desk offering) := shows_desk ⟨rfl, rfl, rfl⟩ rfl
  have hready : (sending.desk offering).cells.Ready := by decide +kernel
  have ha : (sending.desk offering).cells.Operand 249 (-128) := by decide +kernel
  have hoffers : offering.Offers [3, -128, 0] := Input.offers_ofScript [3, -128, 0] []
  have hblock : sending.program.Holds 251 ((Code.operation (.move 249 ioPort)).cells 251) :=
    holds_placed 251 _ ([(249, -128)] ++ reserved)
  have hcell : sending.fetch sending.pc = .subleq 255 255 252 := by decide +kernel
  have hrunning : sending.step.1 = .running := by decide +kernel
  have hunstored : (sending.desk offering).cells ioPort = none := by decide +kernel
  obtain ⟨hblocks, hcells⟩ := sends_to_port hshows
  obtain ⟨d', x, y, hshown, hoperands, hpassages, hinput, hport⟩ :=
    hcells _ (by decide) hcell (by decide) (by simp [hrunning])
  exact ⟨⟨hshows, hready, ha, hoffers⟩,
    (hblocks (by decide) hready ha ha hoffers).1 hblock (by decide),
    d', x, y, hshown, hoperands, hpassages, hinput, hport.trans hunstored⟩

end Machine

end Subleq
