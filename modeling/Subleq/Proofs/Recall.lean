import Mathlib
import Subleq.Proofs.Atomicity

/-!
# Subleq.Proofs.Recall — what a data store recalls of its past

The past of a data store is the row of all that was done with it, first to last (`Act`). What a read
gives, where a write goes and who gets to see it is said here in terms of the past alone:

1. the value of a cell is that of its latest write since the store was cleared, among those that did
   not go to an output (`Latest`);
2. the input and the output are those that were installed last (`LastGiven`), and the input has
   given a reply for each time that the port was read since;
3. the watchers of a cell are all that were added for it, in this order.

The cells, the attachments and the watchers of the store are what the past says (`Remembers`), and
every act keeps this up (`Remembers.perform`). With it goes all that can be seen of the store
(`recalls_performs`), wherever its port is.
-/

namespace Subleq

/-! ## Lists -/

/-- The last one of a list for which there is something to get, what it gives, and those after
it. -/
def LastGiven {α β : Type} (give : α → Option β) (past : List α) (x : β) (since : List α) : Prop :=
  ∃ before act, past = before ++ act :: since ∧ give act = some x ∧
    ∀ later ∈ since, give later = none

/-- The element at which a list is split is the last one, or it comes before the last one. -/
theorem concat_eq_append_cons_iff {α : Type} {past before after : List α} {last x : α} :
    past ++ [last] = before ++ x :: after ↔
      (after = [] ∧ past = before ∧ last = x) ∨
      ∃ rest, after = rest ++ [last] ∧ past = before ++ x :: rest := by
  constructor
  · intro h
    rcases List.eq_nil_or_concat' after with rfl | ⟨rest, y, rfl⟩
    · obtain ⟨hpast, hlast⟩ := List.append_inj' h rfl
      exact .inl ⟨rfl, hpast, List.head_eq_of_cons_eq hlast⟩
    · have hsplit : past ++ [last] = (before ++ x :: rest) ++ [y] := by
        rw [h, List.append_assoc, List.cons_append]
      obtain ⟨hpast, hlast⟩ := List.append_inj' hsplit rfl
      cases hlast
      exact .inr ⟨rest, rfl, hpast⟩
  · rintro (⟨rfl, rfl, rfl⟩ | ⟨rest, rfl, rfl⟩)
    · rfl
    · rw [List.append_assoc, List.cons_append]

section LastGiven

variable {α β : Type} {give : α → Option β} {past since : List α} {last : α} {x : β}

theorem lastGiven_concat : LastGiven give (past ++ [last]) x since ↔
    (since = [] ∧ give last = some x) ∨
    (give last = none ∧ ∃ since', since = since' ++ [last] ∧ LastGiven give past x since') := by
  constructor
  · rintro ⟨before, act, hsplit, hgive, hnone⟩
    rcases concat_eq_append_cons_iff.mp hsplit with ⟨rfl, -, rfl⟩ | ⟨since', rfl, rfl⟩
    · exact .inl ⟨rfl, hgive⟩
    · exact .inr ⟨hnone last (by simp), since', rfl, before, act, rfl, hgive,
        fun later hlater => hnone later (List.mem_append_left _ hlater)⟩
  · rintro (⟨rfl, hgive⟩ | ⟨hnone, since', rfl, before, act, rfl, hgive, hothers⟩)
    · exact ⟨past, last, rfl, hgive, by simp⟩
    · refine ⟨before, act, by simp, hgive, fun later hlater => ?_⟩
      rcases List.mem_append.mp hlater with hlater | hlater
      · exact hothers later hlater
      · rwa [List.mem_singleton.mp hlater]

/-- Where there is something to get, there is a last one that gives it. -/
theorem exists_lastGiven_iff :
    (∃ x since, LastGiven give past x since) ↔ ∃ act ∈ past, (give act).isSome := by
  induction past using List.reverseRecOn with
  | nil => simp [LastGiven]
  | append_singleton past last ih =>
    simp only [lastGiven_concat, List.mem_append, List.mem_singleton]
    cases hlast : give last with
    | some y =>
      refine iff_of_true ⟨y, [], .inl ⟨rfl, rfl⟩⟩ ⟨last, .inr rfl, by simp [hlast]⟩
    | none =>
      constructor
      · rintro ⟨x, since, ⟨-, hsome⟩ | ⟨-, since', rfl, hpast⟩⟩
        · cases hsome
        · obtain ⟨act, hmem, hact⟩ := ih.mp ⟨x, since', hpast⟩
          exact ⟨act, .inl hmem, hact⟩
      · rintro ⟨act, hmem | rfl, hact⟩
        · obtain ⟨x, since, hpast⟩ := ih.mpr ⟨act, hmem, hact⟩
          exact ⟨x, since ++ [last], .inr ⟨rfl, since, rfl, hpast⟩⟩
        · rw [hlast] at hact
          cases hact

end LastGiven

namespace Memory

/-! ## Acts -/

/-- What can be done with a data store. -/
inductive Act where
  | read (address : Int)
  | write (address value : Int)
  /-- A look at a cell, which is not a read. -/
  | look (address : Int)
  | clear
  | install (input : Option Input) (output : Option String)
  | watch (address : Int) (name : String)

/-- The input that is installed. -/
def Act.input? : Act → Option Input
  | .install input _ => input
  | _ => none

/-- The output that is installed. -/
def Act.output? : Act → Option String
  | .install _ output => output
  | _ => none

/-- The watcher that is added for a cell. -/
def Act.watcher? (c : Int) : Act → Option String
  | .watch a name => if cellOf a = c then some name else none
  | _ => none

/-- The port is read. -/
def Act.readsPort (port : Int) : Act → Bool
  | .read a => cellOf a = port
  | _ => false

/-- The store after an act. -/
def perform (m : Memory) : Act → Memory
  | .read a => (m.read a).2
  | .write a v => m.write a v
  | .look _ => m
  | .clear => m.clear
  | .install input output => m.install input output
  | .watch a name => m.watch a name

/-- The store after a row of acts. -/
def performs (m : Memory) (acts : List Act) : Memory := acts.foldl perform m

/-! ## What the past says -/

/-- What is written to the address goes to an output. -/
def Routes (port : Int) (past : List Act) (a : Int) : Prop :=
  cellOf a = port ∧ ∃ act ∈ past, act.output?.isSome

/-- What is read at the address comes from an input. -/
def Consults (port : Int) (past : List Act) (a : Int) : Prop :=
  cellOf a = port ∧ ∃ act ∈ past, act.input?.isSome

/-- After this past the act stores a value in a cell. -/
def Stores (port : Int) (past : List Act) (act : Act) (c v : Int) : Prop :=
  ∃ a, act = .write a v ∧ cellOf a = c ∧ ¬Routes port past a

/-- The value was stored in the cell, and since then the store was not cleared, and no other value
was stored there. -/
def Latest (port : Int) (past : List Act) (c v : Int) : Prop :=
  ∃ before act since, past = before ++ act :: since ∧ Stores port before act c v ∧
    ∀ between later rest, since = between ++ later :: rest →
      later ≠ .clear ∧ ∀ w, ¬Stores port (before ++ act :: between) later c w

/-- How often the port was read. -/
def portReads (port : Int) (past : List Act) : Nat := past.countP (·.readsPort port)

/-- The watchers that were added for a cell. -/
def watchersOf (past : List Act) (c : Int) : List String := past.filterMap (·.watcher? c)

variable {port : Int} {past : List Act} {act : Act} {m : Memory} {c v : Int}

theorem not_latest_nil : ¬Latest port [] c v := by
  rintro ⟨before, act, since, hsplit, -⟩
  simp at hsplit

theorem latest_concat : Latest port (past ++ [act]) c v ↔ Stores port past act c v ∨
    (act ≠ .clear ∧ (∀ w, ¬Stores port past act c w) ∧ Latest port past c v) := by
  constructor
  · rintro ⟨before, first, since, hsplit, hstores, hkept⟩
    rcases concat_eq_append_cons_iff.mp hsplit with ⟨-, rfl, rfl⟩ | ⟨since', rfl, rfl⟩
    · exact .inl hstores
    · obtain ⟨hclear, hother⟩ := hkept since' act [] rfl
      refine .inr ⟨hclear, hother, before, first, since', rfl, hstores, ?_⟩
      rintro between later rest rfl
      exact hkept between later (rest ++ [act]) (by simp)
  · rintro (hstores | ⟨hclear, hother, before, first, since, rfl, hstores, hkept⟩)
    · exact ⟨past, act, [], rfl, hstores, by simp⟩
    · refine ⟨before, first, since ++ [act], by simp, hstores, ?_⟩
      intro between later rest hsplit
      -- what comes later is the last act, or it came later before
      rcases concat_eq_append_cons_iff.mp hsplit with ⟨-, rfl, rfl⟩ | ⟨rest', -, hbefore⟩
      · exact ⟨hclear, hother⟩
      · exact hkept between later rest' hbefore

/-! ## Acts and the parts of a store -/

@[simp] theorem write_attached (m : Memory) (a v : Int) :
    (m.write a v).portAddress = m.portAddress ∧ (m.write a v).input = m.input ∧
    (m.write a v).output = m.output ∧ (m.write a v).watchers = m.watchers := by
  unfold write
  split
  · split <;> simp [writeCell]
  · simp [writeCell]

/-- A write goes to the output, if there is one, and otherwise it is stored. -/
theorem write_cases (m : Memory) (a v : Int) :
    (∃ name, m.output = some name ∧ cellOf a = m.portAddress ∧
      m.write a v = { m with events := .output name v :: m.events }) ∨
    (¬(cellOf a = m.portAddress ∧ m.output.isSome) ∧ m.write a v = m.writeCell (cellOf a) v) := by
  cases houtput : m.output with
  | none => exact .inr ⟨by simp, by simp [write, houtput]⟩
  | some name =>
    by_cases hport : cellOf a = m.portAddress
    · exact .inl ⟨name, rfl, hport, by simp [write, houtput, hport]⟩
    · exact .inr ⟨fun h => hport h.1, by simp [write, houtput, hport]⟩

theorem perform_portAddress (m : Memory) (act : Act) :
    (m.perform act).portAddress = m.portAddress := by
  cases act with
  | read a => exact (m.onlyAsked_read a).portAddress
  | write a v => exact (m.write_attached a v).1
  | look a => rfl
  | clear => rfl
  | install input output => rfl
  | watch a name => rfl

theorem perform_output (m : Memory) (act : Act) :
    (m.perform act).output = act.output?.or m.output := by
  cases act with
  | read a => exact (m.onlyAsked_read a).output
  | write a v => exact (m.write_attached a v).2.2.1
  | look a => rfl
  | clear => rfl
  | install input output => cases output <;> rfl
  | watch a name => rfl

/-- An input that is not replaced has one reply less to give if the port was read. -/
theorem perform_input (m : Memory) (act : Act) : (m.perform act).input = act.input?.or
    (m.input.map fun i => { i with taken := i.taken + portReads m.portAddress [act] }) := by
  have hsame : ∀ i : Input, { i with taken := i.taken + 0 } = i := fun i => rfl
  cases act with
  | read a =>
    by_cases hasks : m.Asks a
    · obtain ⟨i, hi⟩ := Option.isSome_iff_exists.mp hasks.1
      simp [perform, read_of_asks hi hasks.2, ask, hi, Act.input?, portReads, Act.readsPort,
        hasks.2, Input.advance]
    · have hkept : (m.read a).2 = m := by
        rw [read_of_not_asks hasks]
        unfold readCell
        split <;> rfl
      cases hi : m.input with
      | none => simp [perform, hkept, hi, Act.input?]
      | some i =>
        have hport : cellOf a ≠ m.portAddress := fun h => hasks ⟨by rw [hi]; rfl, h⟩
        simp [perform, hkept, hi, Act.input?, portReads, Act.readsPort, hport]
  | write a v => simp [perform, Act.input?, portReads, Act.readsPort]
  | look a => simp [perform, Act.input?, portReads, Act.readsPort]
  | clear => simp [perform, clear, Act.input?, portReads, Act.readsPort]
  | install input output =>
    cases input <;> simp [perform, install, Act.input?, portReads, Act.readsPort]
  | watch a name => simp [perform, watch, Act.input?, portReads, Act.readsPort]

/-- The names of the watchers of a cell. -/
def watcherNames (m : Memory) (c : Int) : List String :=
  (m.watchers.filter (·.1 = c)).map (·.2)

theorem perform_watchers (m : Memory) (act : Act) (c : Int) :
    (m.perform act).watcherNames c = m.watcherNames c ++ (act.watcher? c).toList := by
  unfold watcherNames
  cases act with
  | read a => simp [perform, (m.onlyAsked_read a).watchers, Act.watcher?]
  | write a v => simp [perform, Act.watcher?]
  | look a => simp [perform, Act.watcher?]
  | clear => simp [perform, clear, Act.watcher?]
  | install input output => simp [perform, install, Act.watcher?]
  | watch a name => by_cases hc : cellOf a = c <;> simp [perform, watch, Act.watcher?, hc]

/-! ## Remembering -/

/-- A data store is as its past has it. -/
structure Remembers (port : Int) (past : List Act) (m : Memory) : Prop where
  portAddress : m.portAddress = port
  cells : ∀ c v, m.cells[c]? = some v ↔ Latest port past c v
  input : ∀ j, m.input = some j ↔ ∃ i since, LastGiven Act.input? past i since ∧
    j = { i with taken := i.taken + portReads port since }
  output : ∀ name, m.output = some name ↔ ∃ since, LastGiven Act.output? past name since
  watchers : ∀ c, m.watcherNames c = watchersOf past c

theorem remembers_nil (port : Int) : Remembers port [] { portAddress := port } := by
  refine ⟨rfl, fun c v => ?_, fun j => ?_, fun name => ?_, fun c => rfl⟩
  · simp [not_latest_nil]
  · simp [LastGiven]
  · simp [LastGiven]

theorem Remembers.routes_iff (h : Remembers port past m) (a : Int) :
    Routes port past a ↔ cellOf a = m.portAddress ∧ m.output.isSome := by
  rw [Routes, h.portAddress, ← exists_lastGiven_iff, Option.isSome_iff_exists]
  simp only [h.output]

theorem Remembers.consults_iff (h : Remembers port past m) (a : Int) :
    Consults port past a ↔ m.Asks a := by
  rw [Consults, Asks, h.portAddress, ← exists_lastGiven_iff, Option.isSome_iff_exists, and_comm]
  simp only [h.input]
  refine and_congr_left fun _ => ⟨?_, ?_⟩
  · rintro ⟨i, since, hlast⟩
    exact ⟨_, i, since, hlast, rfl⟩
  · rintro ⟨_, i, since, hlast, -⟩
    exact ⟨i, since, hlast⟩

/-- The cells after an act hold what was stored last. -/
theorem Remembers.perform_cells (h : Remembers port past m) (act : Act) (c v : Int) :
    (m.perform act).cells[c]? = some v ↔ Latest port (past ++ [act]) c v := by
  rw [latest_concat, ← h.cells]
  -- all acts but writing and clearing leave the cells as they are
  have hother : (∀ a v, act ≠ .write a v) → act ≠ .clear → (m.perform act).cells = m.cells →
      ((m.perform act).cells[c]? = some v ↔ Stores port past act c v ∨
        (act ≠ .clear ∧ (∀ w, ¬Stores port past act c w) ∧ m.cells[c]? = some v)) := by
    intro hwrite hclear hcells
    have hstores : ∀ w, ¬Stores port past act c w := by
      rintro w ⟨a, hact, -⟩
      exact hwrite a w hact
    simp [hcells, hclear, hstores]
  cases act with
  | read a => exact hother nofun nofun (m.onlyAsked_read a).cells
  | look a => exact hother nofun nofun rfl
  | install input output => exact hother nofun nofun rfl
  | watch a name => exact hother nofun nofun rfl
  | clear => simp [perform, clear, Stores]
  | write a w =>
    have hstores : ∀ x, Stores port past (.write a w) c x ↔
        w = x ∧ cellOf a = c ∧ ¬Routes port past a := by
      intro x
      simp [Stores, and_assoc]
    simp only [hstores]
    rcases m.write_cases a w with ⟨name, hname, hport, hwrite⟩ | ⟨hstored, hwrite⟩
    · have hroutes : Routes port past a := (h.routes_iff a).mpr ⟨hport, by rw [hname]; rfl⟩
      simp [perform, hwrite, hroutes]
    · have hroutes : ¬Routes port past a := fun hr => hstored ((h.routes_iff a).mp hr)
      simp only [perform, hwrite, writeCell, AddressMap.get?_insert]
      by_cases hc : cellOf a = c <;> simp [hc, hroutes]

/-- Every act is remembered. -/
theorem Remembers.perform (h : Remembers port past m) (act : Act) :
    Remembers port (past ++ [act]) (m.perform act) := by
  constructor
  case portAddress => exact (m.perform_portAddress act).trans h.portAddress
  case cells => exact h.perform_cells act
  case input =>
    intro j
    rw [m.perform_input act, h.portAddress]
    simp only [lastGiven_concat]
    cases hgiven : act.input? with
    | some given =>
      constructor
      · rintro ⟨⟩
        exact ⟨j, [], .inl ⟨rfl, rfl⟩, rfl⟩
      · rintro ⟨i', since, ⟨rfl, ⟨⟩⟩ | ⟨⟨⟩, -⟩, rfl⟩
        rfl
    | none =>
      -- the input stays attached, and may have given one more reply
      rw [Option.none_or, Option.map_eq_some_iff]
      constructor
      · rintro ⟨i', hi', rfl⟩
        obtain ⟨i, since, hlast, rfl⟩ := (h.input i').mp hi'
        refine ⟨i, since ++ [act], .inr ⟨rfl, since, rfl, hlast⟩, ?_⟩
        simp [portReads, Nat.add_assoc]
      · rintro ⟨i, since, ⟨-, ⟨⟩⟩ | ⟨-, since', rfl, hlast⟩, rfl⟩
        refine ⟨_, (h.input _).mpr ⟨i, since', hlast, rfl⟩, ?_⟩
        simp [portReads, Nat.add_assoc]
  case output =>
    intro name
    rw [m.perform_output act]
    simp only [lastGiven_concat]
    cases hgiven : act.output? with
    | some given =>
      constructor
      · rintro ⟨⟩
        exact ⟨[], .inl ⟨rfl, rfl⟩⟩
      · rintro ⟨since, ⟨-, hsome⟩ | ⟨⟨⟩, -⟩⟩
        exact hsome
    | none =>
      rw [Option.none_or, h.output]
      constructor
      · rintro ⟨since, hlast⟩
        exact ⟨since ++ [act], .inr ⟨rfl, since, rfl, hlast⟩⟩
      · rintro ⟨since, ⟨-, ⟨⟩⟩ | ⟨-, since', -, hlast⟩⟩
        exact ⟨since', hlast⟩
  case watchers =>
    intro c
    rw [m.perform_watchers act, h.watchers, watchersOf, watchersOf, List.filterMap_append]
    cases hadded : act.watcher? c <;> simp [hadded]

/-- So is every row of acts. -/
theorem Remembers.performs (h : Remembers port past m) (acts : List Act) :
    Remembers port (past ++ acts) (m.performs acts) := by
  induction acts generalizing past m with
  | nil => simpa [Memory.performs] using h
  | cons act acts ih =>
    have hrest := ih (h.perform act)
    rw [List.append_assoc] at hrest
    exact hrest

/-! ## Results -/

/-- What can be seen of a data store, in terms of its past. -/
structure Recalls (port : Int) (past : List Act) (m : Memory) : Prop where
  /-- Reading the port takes the next reply of the input that was installed last, which has given
  one for each time that the port was read since. -/
  consulted : ∀ a i since, cellOf a = port → LastGiven Act.input? past i since →
    (m.read a).1 = (i.replies (i.taken + portReads port since)).answer.mapError .input ∧
      (m.read a).2.history =
        m.history ++ [.asked (i.replies (i.taken + portReads port since))]
  /-- Any other read gives the latest value that was stored, and fails if there is none. Nothing
  else comes of it. -/
  stored : ∀ a, ¬Consults port past a →
    (∀ v, (m.read a).1 = .ok v ↔ Latest port past (cellOf a) v) ∧
      ((m.read a).1 = .error (.uninitialized (cellOf a)) ↔ ∀ v, ¬Latest port past (cellOf a) v) ∧
      (m.read a).2 = m
  /-- A write to the port is handed to the output that was installed last, if there is one. It
  stores nothing, and no watcher sees it. -/
  routed : ∀ a v, Routes port past a → (m.write a v).cells = m.cells ∧
    ∃ name since, LastGiven Act.output? past name since ∧
      (m.write a v).history = m.history ++ [.output name v]
  /-- Any other write is seen by all watchers that were added for the cell, once each and in this
  order, with what the cell held before. -/
  watched : ∀ a v, ¬Routes port past a → (m.write a v).history =
    m.history ++ (watchersOf past (cellOf a)).map fun name =>
      .watched name (cellOf a) (m.get? a) v
  /-- A look at a cell shows what was stored last. -/
  looked : ∀ a v, m.get? a = some v ↔ Latest port past (cellOf a) v
  initialized : ∀ a, m.isInitialized a = true ↔ ∃ v, Latest port past (cellOf a) v
  /-- All stored cells are listed, in increasing order, and counted. -/
  listed : ∀ c v, (c, v) ∈ m.items ↔ Latest port past c v
  ordered : m.items.Pairwise (·.1 < ·.1)
  counted : ∃ cells : Finset Int, (∀ c, c ∈ cells ↔ ∃ v, Latest port past c v) ∧
    m.size = cells.card

theorem Remembers.consulted (h : Remembers port past m) {a : Int} {i : Input} {since : List Act}
    (hport : cellOf a = port) (hlast : LastGiven Act.input? past i since) :
    (m.read a).1 = (i.replies (i.taken + portReads port since)).answer.mapError .input ∧
      (m.read a).2.history =
        m.history ++ [.asked (i.replies (i.taken + portReads port since))] := by
  rw [read_of_asks ((h.input _).mpr ⟨i, since, hlast, rfl⟩) (hport.trans h.portAddress.symm)]
  exact ⟨rfl, by simp [ask, history, Input.next]⟩

theorem Remembers.stored (h : Remembers port past m) {a : Int} (hasks : ¬Consults port past a) :
    (∀ v, (m.read a).1 = .ok v ↔ Latest port past (cellOf a) v) ∧
      ((m.read a).1 = .error (.uninitialized (cellOf a)) ↔ ∀ v, ¬Latest port past (cellOf a) v) ∧
      (m.read a).2 = m := by
  simp only [← h.cells, read_of_not_asks (fun hm => hasks ((h.consults_iff a).mpr hm))]
  cases hcell : m.cells[cellOf a]? <;> simp [readCell, hcell]

theorem Remembers.routed (h : Remembers port past m) {a : Int} (hroutes : Routes port past a)
    (v : Int) : (m.write a v).cells = m.cells ∧
      ∃ name since, LastGiven Act.output? past name since ∧
        (m.write a v).history = m.history ++ [.output name v] := by
  rcases m.write_cases a v with ⟨name, hname, -, hwrite⟩ | ⟨hstored, -⟩
  · obtain ⟨since, hlast⟩ := (h.output name).mp hname
    rw [hwrite]
    exact ⟨rfl, name, since, hlast, by simp [history]⟩
  · exact absurd ((h.routes_iff a).mp hroutes) hstored

theorem Remembers.watched (h : Remembers port past m) {a : Int} (hroutes : ¬Routes port past a)
    (v : Int) : (m.write a v).history =
      m.history ++ (watchersOf past (cellOf a)).map fun name =>
        .watched name (cellOf a) (m.get? a) v := by
  rcases m.write_cases a v with ⟨name, hname, hport, -⟩ | ⟨-, hwrite⟩
  · exact absurd ((h.routes_iff a).mpr ⟨hport, by rw [hname]; rfl⟩) hroutes
  · rw [hwrite, ← h.watchers]
    simp [writeCell, history, sightings, watcherNames, get?, Function.comp_def]

/-- The stored cells are as many as there are cells in which something was stored last. -/
theorem Remembers.counted (h : Remembers port past m) :
    ∃ cells : Finset Int, (∀ c, c ∈ cells ↔ ∃ v, Latest port past c v) ∧ m.size = cells.card := by
  have hdistinct : m.cells.keys.Nodup := by
    refine List.Pairwise.imp (fun hlt heq => ?_) Std.ExtTreeMap.ordered_keys
    rw [heq] at hlt
    simp at hlt
  refine ⟨m.cells.keys.toFinset, fun c => ?_, ?_⟩
  · rw [List.mem_toFinset, Std.ExtTreeMap.mem_keys, ← Std.ExtTreeMap.isSome_getElem?_iff_mem,
      Option.isSome_iff_exists]
    simp only [h.cells]
  · rw [List.toFinset_card_of_nodup hdistinct, Std.ExtTreeMap.length_keys]
    rfl

theorem Remembers.recalls (h : Remembers port past m) : Recalls port past m := by
  constructor
  case consulted => exact fun a i since hport hlast => h.consulted hport hlast
  case stored => exact fun a hasks => h.stored hasks
  case routed => exact fun a v hroutes => h.routed hroutes v
  case watched => exact fun a v hroutes => h.watched hroutes v
  case looked => exact fun a v => h.cells (cellOf a) v
  case initialized =>
    intro a
    rw [isInitialized, Std.ExtTreeMap.contains_eq_isSome_getElem?, Option.isSome_iff_exists]
    simp only [h.cells]
  case listed =>
    intro c v
    rw [items, Std.ExtTreeMap.mem_toList_iff_getElem?_eq_some]
    exact h.cells c v
  case ordered =>
    exact List.Pairwise.imp (fun hlt => compare_lt_iff_lt.mp hlt)
      Std.ExtTreeMap.ordered_keys_toList
  case counted => exact h.counted

/-- Wherever its port is and whatever has been done with it, a data store recalls all of its past,
which begins with the input and the output that it was made with. -/
theorem recalls_performs (port : Int) (input : Option Input) (output : Option String)
    (acts : List Act) : Recalls port (.install input output :: acts)
      (({ portAddress := port, input, output } : Memory).performs acts) := by
  have hmade : ({ portAddress := port } : Memory).perform (.install input output) =
      { portAddress := port, input, output } := by
    cases input <;> cases output <;> rfl
  have hfirst := (remembers_nil port).perform (.install input output)
  rw [hmade] at hfirst
  exact (hfirst.performs acts).recalls

/-- Acts on a store with its port at 7. An input and an output are installed late, so that the first
write to the port is stored and the second one is not; another cell has two watchers. -/
def lateActs : List Act :=
  [.write 7 1, .watch 3 "low", .watch 259 "high",
    .install (some (Input.ofScript [.ok 4])) (some "out"), .write 263 2, .write (-253) 5, .read 7,
    .look 3]

def lateStore : Memory := ({ portAddress := 7 } : Memory).performs lateActs

theorem recalls_performs_late :
    (lateStore.read 515).1 = .ok 5 ∧ (lateStore.read 7).1 = .error (.input .scriptEnded) ∧
      (lateStore.write 7 9).cells = lateStore.cells ∧ (lateStore.write 3 6).history =
        lateStore.history ++ [.watched "low" 3 (some 5) 6, .watched "high" 3 (some 5) 6] := by
  have h : Recalls 7 (.install none none :: lateActs) lateStore :=
    recalls_performs 7 none none lateActs
  have hlatest : Latest 7 (.install none none :: lateActs) 3 5 := by
    refine ⟨.install none none :: lateActs.take 5, .write (-253) 5, [.read 7, .look 3], rfl,
      ⟨-253, rfl, by decide, fun hr => absurd hr.1 (by decide)⟩, ?_⟩
    intro between later rest hsplit
    have hmem : later ∈ [Act.read 7, Act.look 3] := by simp [hsplit]
    simp only [List.mem_cons, List.not_mem_nil, or_false] at hmem
    rcases hmem with rfl | rfl
    · exact ⟨nofun, fun w ⟨a, hact, _⟩ => nomatch hact⟩
    · exact ⟨nofun, fun w ⟨a, hact, _⟩ => nomatch hact⟩
  have hinput : LastGiven Act.input? (.install none none :: lateActs) (Input.ofScript [.ok 4])
      [.write 263 2, .write (-253) 5, .read 7, .look 3] :=
    ⟨.install none none :: lateActs.take 3, _, rfl, rfl, by simp [Act.input?]⟩
  have hroutes : Routes 7 (.install none none :: lateActs) 7 :=
    ⟨by decide, .install (some (Input.ofScript [.ok 4])) (some "out"), by simp [lateActs], rfl⟩
  have hstored := h.stored 515 fun hc => absurd hc.1 (by decide)
  have hwatched := h.watched 3 6 fun hr => absurd hr.1 (by decide)
  have hold : lateStore.get? 3 = some 5 := (h.looked 3 5).mpr hlatest
  rw [hold] at hwatched
  exact ⟨(hstored.1 5).mpr hlatest, (h.consulted 7 _ _ (by decide) hinput).1,
    (h.routed 7 9 hroutes).1, hwatched⟩

end Memory

end Subleq
