import Subleq.Machine.Tracer
import Subleq.Proofs.RoundTrip

/-!
# Subleq.Proofs.Writing — texts with numbers

A text with numbers in it is made exactly if none of them is too long to be written. That a result is
of this kind is `WrittenIf`; it carries over from the parts of a text to the whole (`WrittenIf.bind`,
`WrittenIf.mapM`), so that of each line and each dump it is said once which numbers count and what
the text is.
-/

namespace Subleq

namespace Text

variable {α β : Type} {r : Except TooManyDigits α} {P Q : Prop} {a b : α}

/-- A result that is there if something holds; otherwise a number is too long to be written. -/
structure WrittenIf (r : Except TooManyDigits α) (P : Prop) (a : α) : Prop where
  ok : P → r = .ok a
  error : ¬P → r = .error .number

namespace WrittenIf

theorem eq_ok_iff (h : WrittenIf r P a) : r = .ok b ↔ P ∧ b = a := by
  by_cases hP : P
  · simp [h.ok hP, hP, eq_comm]
  · simp [h.error hP, hP]

theorem congr (h : WrittenIf r P a) (hPQ : P ↔ Q) : WrittenIf r Q a :=
  ⟨fun hQ => h.ok (hPQ.mpr hQ), fun hQ => h.error fun hP => hQ (hPQ.mp hP)⟩

theorem pure (a : α) : WrittenIf (Pure.pure a) True a := ⟨fun _ => rfl, fun h => absurd trivial h⟩

theorem bind (h : WrittenIf r P a) {f : α → Except TooManyDigits β} {b : β}
    (hf : WrittenIf (f a) Q b) : WrittenIf (r >>= f) (P ∧ Q) b := by
  constructor
  · rintro ⟨hP, hQ⟩
    rw [h.ok hP]
    exact hf.ok hQ
  · intro hnot
    by_cases hP : P
    · rw [h.ok hP]
      exact hf.error fun hQ => hnot ⟨hP, hQ⟩
    · rw [h.error hP]
      rfl

theorem map (h : WrittenIf r P a) (f : α → β) : WrittenIf (r.map f) P (f a) :=
  ⟨fun hP => by rw [h.ok hP]; rfl, fun hP => by rw [h.error hP]; rfl⟩

/-- A text and what is made of it. -/
theorem bind_pure (h : WrittenIf r P a) (f : α → β) :
    WrittenIf (r >>= fun a => Pure.pure (f a)) P (f a) :=
  (h.bind (WrittenIf.pure (f a))).congr (and_iff_left trivial)

theorem mapM {γ : Type} {f : γ → Except TooManyDigits α} {P : γ → Prop} {g : γ → α}
    (h : ∀ x, WrittenIf (f x) (P x) (g x)) (xs : List γ) :
    WrittenIf (xs.mapM f) (∀ x ∈ xs, P x) (xs.map g) := by
  induction xs with
  | nil => exact (WrittenIf.pure []).congr (by simp)
  | cons x xs ih =>
    rw [List.mapM_cons]
    refine ((h x).bind (ih.bind_pure (g x :: ·))).congr ?_
    rw [List.forall_mem_cons]

end WrittenIf

/-! ## Numbers -/

theorem writtenIf_written (n : Int) : WrittenIf (written n) (IsWritable n) (toString n) :=
  ⟨written_of_isWritable, written_of_not_isWritable⟩

/-- A number at the right end of a field, however long it is. -/
def fieldText (width : Nat) (n : Int) : String := padStart width (toString n)

theorem writtenIf_field (width : Nat) (n : Int) :
    WrittenIf (field width n) (IsWritable n) (fieldText width n) :=
  (writtenIf_written n).map _

end Text

open Text

/-! ## Cells -/

namespace Cell

/-- The numbers in the text of a cell. -/
def fields : Cell → List Int
  | load value dest next => [value, dest, next]
  | subleq a b target => [a, b, target]

/-- No number in the text of a cell is too long. -/
def IsWritable (c : Cell) : Prop := ∀ n ∈ c.fields, Text.IsWritable n

instance (c : Cell) : Decidable c.IsWritable :=
  inferInstanceAs (Decidable (∀ n ∈ c.fields, Text.IsWritable n))

/-- The text of a cell, however long its numbers are. -/
def text : Cell → String
  | load value dest next => s!"loadim {fieldText 6 value}, m({fieldText 3 dest}), {fieldText 3 next}"
  | subleq a b target => s!"subleq m({fieldText 3 a}), m({fieldText 3 b}), {fieldText 3 target}"

theorem writtenIf_disassemble (c : Cell) : WrittenIf c.disassemble c.IsWritable c.text := by
  cases c with
  | load value dest next =>
    refine ((writtenIf_field 6 value).bind ((writtenIf_field 3 dest).bind
      ((writtenIf_field 3 next).bind_pure _))).congr ?_
    simp [IsWritable, fields]
  | subleq a b target =>
    refine ((writtenIf_field 3 a).bind ((writtenIf_field 3 b).bind
      ((writtenIf_field 3 target).bind_pure _))).congr ?_
    simp [IsWritable, fields]

/-- Bytes can be written. -/
theorem Fits.isWritable {c : Cell} (h : c.Fits) : c.IsWritable := by
  intro n hn
  cases c with
  | load value dest next =>
    rcases h with ⟨hvalue, hdest, hnext⟩
    simp only [fields, List.mem_cons, List.not_mem_nil, or_false] at hn
    rcases hn with rfl | rfl | rfl <;> exact isWritable_of_lt (by omega) (by omega)
  | subleq a b target =>
    rcases h with ⟨ha, hb, htarget⟩
    simp only [fields, List.mem_cons, List.not_mem_nil, or_false] at hn
    rcases hn with rfl | rfl | rfl <;> exact isWritable_of_lt (by omega) (by omega)

end Cell

/-! ## Lines of dumps and traces -/

namespace Program

/-- The dump lists the cells that are not empty. -/
theorem mem_populated_iff {p : Program} {a : Int} {c : Cell} :
    (a, c) ∈ p.populated ↔ p[a]? = some c ∧ c ≠ .empty := by
  unfold populated
  rw [List.mem_filter, Std.ExtTreeMap.mem_toList_iff_getElem?_eq_some, Bool.not_eq_true',
    ← Bool.not_eq_true, Cell.isEmpty_iff]

/-- The line of a cell in a dump, however long its numbers are. -/
def lineText (address : Int) (cell : Cell) : String :=
  s!"Addr: {fieldText 3 address} Instr: {cell.text}"

theorem writtenIf_dumpLine (address : Int) (cell : Cell) :
    WrittenIf (dumpLine address cell) (Text.IsWritable address ∧ cell.IsWritable)
      (lineText address cell) :=
  (writtenIf_field 3 address).bind (cell.writtenIf_disassemble.bind_pure _)

/-- No number that a dump shows is too long. -/
def IsWritable (p : Program) : Prop :=
  ∀ e ∈ p.populated, Text.IsWritable e.1 ∧ e.2.IsWritable

theorem writtenIf_dump (p : Program) :
    WrittenIf p.dump p.IsWritable (joinLines (p.populated.map fun e => lineText e.1 e.2)) :=
  (WrittenIf.mapM (fun e : Int × Cell => writtenIf_dumpLine e.1 e.2) p.populated).bind_pure joinLines

/-- Where all addresses and fields are bytes, the store can be written. -/
theorem isWritable_of_fits {p : Program}
    (h : ∀ (a : Int) (c : Cell), p[a]? = some c → (0 ≤ a ∧ a ≤ 255) ∧ c.Fits) : p.IsWritable := by
  rintro ⟨a, c⟩ he
  obtain ⟨ha, hc⟩ := h a c (mem_populated_iff.mp he).1
  exact ⟨isWritable_of_lt (by omega) (by omega), hc.isWritable⟩

end Program

namespace TraceEntry

/-- No number in the line of an instruction is too long. -/
def IsWritable (e : TraceEntry) : Prop := Text.IsWritable e.pc ∧ e.cell.IsWritable

instance (e : TraceEntry) : Decidable e.IsWritable :=
  inferInstanceAs (Decidable (Text.IsWritable e.pc ∧ e.cell.IsWritable))

/-- The line of an instruction, however long its numbers are. -/
def text (e : TraceEntry) : String := s!"{fieldText 3 e.pc}: {e.cell.text}"

theorem writtenIf_render (e : TraceEntry) : WrittenIf e.render e.IsWritable e.text :=
  (writtenIf_field 3 e.pc).bind (e.cell.writtenIf_disassemble.bind_pure _)

end TraceEntry

/-! ## Traced steps -/

namespace Tracer

variable {t : Tracer}

/-- The instruction that a step enters into the trace. -/
def entering? (t : Tracer) : Option TraceEntry := if t.tracing then t.machine.next? else none

/-- What a step enters into the trace can be written. -/
def CanEnter (t : Tracer) : Prop := ∀ e, t.entering? = some e → e.IsWritable

/-- The trace as a step leaves it, if the instruction can be entered. -/
def entered (t : Tracer) : Trace :=
  match t.entering? with
  | some e => t.trace.push e.text
  | none => t.trace

theorem step_of_canEnter (h : t.CanEnter) : t.step = (t.machine.step.1,
    { t with machine := t.machine.step.2, trace := t.entered }) := by
  have hentering : (if t.tracing then t.machine.next? else none) = t.entering? := rfl
  unfold step entered
  rw [hentering]
  cases hentry : t.entering? with
  | none => rfl
  | some e =>
    simp only [e.writtenIf_render.ok (h e hentry)]
    rfl

/-- An instruction that cannot be entered is not executed. -/
theorem step_of_not_canEnter (h : ¬t.CanEnter) : t.step = (.faulted .unwritable,
    { t with machine := { t.machine with state := .running } }) := by
  simp only [CanEnter, not_forall] at h
  rcases h with ⟨e, hentry, hwritable⟩
  unfold step
  rw [show (if t.tracing then t.machine.next? else none) = some e from hentry]
  simp only [e.writtenIf_render.error hwritable]

end Tracer

/-! ## The data store -/

namespace Memory

/-- The line of a stored cell in a dump, however long its numbers are. -/
def lineText (address value : Int) : String :=
  s!"Addr: {fieldText 3 address} Val: {fieldText 4 value}"

theorem writtenIf_dump (m : Memory) :
    WrittenIf m.dump (∀ e ∈ m.items, Text.IsWritable e.1 ∧ Text.IsWritable e.2)
      (joinLines (m.items.map fun e => lineText e.1 e.2)) :=
  (WrittenIf.mapM (fun e : Int × Int =>
    (writtenIf_field 3 e.1).bind ((writtenIf_field 4 e.2).bind_pure _)) m.items).bind_pure joinLines

end Memory

end Subleq
