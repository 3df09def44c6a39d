/-!
# Subleq.Machine.Trace — the most recent lines

A trace keeps the latest lines up to a limit. So that adding a line takes the same time however many
there are, lines are kept in two generations: when the younger one is full it becomes the older one,
and the older one is dropped.
-/

namespace Subleq

/-- The latest lines, both generations from the last to the first, and the size of the younger one. -/
structure Trace where
  young : List String := []
  count : Nat := 0
  old : List String := []
deriving Repr, DecidableEq

namespace Trace

/-- The number of lines that are kept. -/
def limit : Nat := 10000

/-- The lines kept, from the last to the first. -/
def recent (t : Trace) : List String := (t.young ++ t.old).take limit

/-- The lines kept, first to last. -/
def toList (t : Trace) : List String := t.recent.reverse

/-- Adds a line. -/
def push (t : Trace) (line : String) : Trace :=
  if t.count < limit then { t with young := line :: t.young, count := t.count + 1 }
  else { young := [line], count := 1, old := t.young }

/-- The count is that of the younger generation. -/
def Counted (t : Trace) : Prop := t.count = t.young.length

theorem counted_empty : Counted {} := rfl

theorem Counted.push {t : Trace} (h : t.Counted) (line : String) : (t.push line).Counted := by
  unfold Trace.push Counted at *
  split <;> simp_all

/-- A line that is added is the most recent one; the others stay as long as there is room. -/
theorem recent_push {t : Trace} (h : t.Counted) (line : String) :
    (t.push line).recent = (line :: t.recent).take limit := by
  unfold Counted at h
  unfold push recent
  split
  · have hpos : 0 < limit := by decide
    simp only [List.cons_append]
    rw [List.take_cons hpos, List.take_cons hpos, List.take_take, Nat.min_eq_left (Nat.sub_le ..)]
  · next hfull =>
    have hpos : 0 < limit := by decide
    have hlen : limit ≤ t.young.length := by omega
    simp only [List.cons_append, List.nil_append]
    rw [List.take_append_of_le_length hlen, List.take_cons hpos, List.take_cons hpos,
      List.take_take, Nat.min_eq_left (Nat.sub_le ..)]

end Trace

end Subleq
